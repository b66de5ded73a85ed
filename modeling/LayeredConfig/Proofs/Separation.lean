import LayeredConfig.Proofs.Layout
import LayeredConfig.Proofs.World
/-!
# Documents that keep apart

No name leads out of a directory or to what is under another name. The path of a document goes down from
the directory, one step for each segment of its collection and one for its file. No two documents share a
path, no document is in the way of a collection, and the hidden file of a document is neither another
document nor a collection (`Directory.paths_apart`).
-/

namespace LayeredConfig.Directory

open FileTree

/-- The views of a directory: that of the default collection, and those that its views lead to. -/
inductive Opened (root : String) : Store → Prop
  | default : Opened root (.directory root Name.defaultCollection)
  | collection {v u : Store} {c : String} {w w' : World} :
      Opened root v → View.collection v c w = .ok u w' → Opened root u

variable {root c d n m : String} {v : Store}

theorem opened_iff :
    Opened root v ↔ ∃ c, Name.isValidCollection c = true ∧ v = .directory root c := by
  constructor
  · intro h
    induction h with
    | default => exact ⟨Name.defaultCollection, rfl, rfl⟩
    | collection _ hcollection ih =>
      obtain ⟨c, -, rfl⟩ := ih
      obtain ⟨hd, hv, -⟩ := Store.collection_directory_eq_ok.mp hcollection
      exact ⟨_, hd, hv⟩
  · rintro ⟨c, hc, rfl⟩
    exact .collection (w := .empty) .default (Store.collection_directory_eq_ok.mpr ⟨hc, rfl, rfl⟩)

theorem isValidCollection_of_opened (h : Opened root (.directory root c)) :
    Name.isValidCollection c = true := by
  obtain ⟨d, hd, heq⟩ := opened_iff.mp h
  cases heq
  exact hd

/-! ## The path of a document -/

/-- The components that lead from a directory to a document. -/
theorem component_below (hc : Name.isValidCollection c = true) (hn : Name.isValid n = true) :
    ∀ s ∈ below c n, Path.Component s :=
  component_append_fileName (fun _ hs => component_of_mem hc hs) hn

theorem documentPath_eq_foldl (root c n : String) :
    documentPath root c n = (below c n).foldl Path.join root := by
  unfold documentPath collectionPath below
  rw [List.foldl_append]
  rfl

theorem names_documentPath (root : String) (hc : Name.isValidCollection c = true)
    (hn : Name.isValid n = true) :
    Path.names (documentPath root c n) = Path.names root ++ below c n := by
  rw [documentPath_eq_foldl]
  exact Path.names_foldl_join (component_below hc hn)

/-- The hidden file of a document is in its collection. -/
theorem exists_temporary_documentPath (root : String) (hc : Name.isValidCollection c = true)
    (hn : Name.isValid n = true) : ∃ hidden, temporary (documentPath root c n) = .ok hidden ∧
      Path.names hidden = Path.names root ++ Name.segments c ++ [hiddenName (fileName n)] := by
  have hfile := component_fileName hn
  have hnames : Path.names (documentPath root c n) =
      Path.names root ++ Name.segments c ++ [fileName n] := by
    rw [names_documentPath root hc hn, below, List.append_assoc]
  obtain ⟨parent, rest, htemporary, hparent, -, -⟩ := exists_temporary_of_names hnames hfile.ne_dots
  refine ⟨_, htemporary, ?_⟩
  rw [Path.names_join (component_hiddenName hfile.not_slash), hparent]

/-! ## Paths that differ -/

/-- What has a dot is no segment of a collection. -/
theorem not_mem_segments {s : String} (hdot : '.' ∈ s.toList) (c : String) : s ∉ Name.segments c :=
  fun hs => Name.not_dot_of_mem_segments hs hdot

theorem not_below_prefix_segments (c n d : String) : ¬ below c n <+: Name.segments d := by
  intro hprefix
  have hdot : '.' ∈ (fileName n).toList := by simp [toList_fileName]
  apply not_mem_segments hdot d
  apply hprefix.subset
  simp [below]

/-- Of two documents of a directory, the paths go down from it step by step, to different files. The path
of neither leads to a collection or on to one, and its hidden file has a path of its own. -/
theorem paths_apart (hc : Opened root (.directory root c)) (hd : Opened root (.directory root d))
    (hn : Name.isValid n = true) (hm : Name.isValid m = true) : ∃ p q hidden,
    filePath root c n = .ok p ∧ filePath root d m = .ok q ∧ temporary p = .ok hidden ∧
      p = Path.join root ("/".intercalate (below c n)) ∧
      Path.steps p = Path.steps root ++ below c n ∧
      (below c n).length = (Name.segments c).length + 1 ∧
      (∀ s ∈ below c n, Path.Component s) ∧
      (Path.names p = Path.names q → c = d ∧ n = m) ∧
      ¬ Path.names p <+: Path.names (collectionPath root d) ∧
      Path.names hidden ≠ Path.names q ∧
      Path.names hidden ≠ Path.names (collectionPath root d) := by
  have hc := isValidCollection_of_opened hc
  have hd := isValidCollection_of_opened hd
  have hcomponent := component_below hc hn
  have hp := names_documentPath root hc hn
  have hq := names_documentPath root hd hm
  have hcollection := names_collectionPath root hd
  obtain ⟨hidden, htemporary, hhidden⟩ := exists_temporary_documentPath root hc hn
  refine ⟨documentPath root c n, documentPath root d m, hidden, filePath_of_isValid hn root c,
    filePath_of_isValid hm root d, htemporary, ?_, ?_, ?_, hcomponent, ?_, ?_, ?_, ?_⟩
  · rw [documentPath_eq_foldl]
    exact Path.foldl_join_eq (by simp [below]) hcomponent
  · rw [documentPath_eq_foldl]
    exact Path.steps_foldl_join hcomponent
  · simp [below]
  · intro hnames
    rw [hp, hq] at hnames
    exact below_injective (List.append_cancel_left hnames)
  · intro hprefix
    rw [hp, hcollection, List.prefix_append_right_inj] at hprefix
    exact not_below_prefix_segments c n d hprefix
  · -- Both are in collections, and the last step is `.tmp` at its end for the one, `.yml` for the other.
    intro hnames
    rw [hhidden, hq, below, ← List.append_assoc] at hnames
    obtain ⟨-, hlast⟩ := List.append_inj' hnames rfl
    exact hiddenName_ne_fileName (fileName n) m (by simpa using hlast)
  · -- Under the directory, the last step would be a segment, but has a dot.
    intro hnames
    rw [hhidden, hcollection, List.append_assoc] at hnames
    have hdot : '.' ∈ (hiddenName (fileName n)).toList := by simp [hiddenName]
    apply not_mem_segments hdot d
    rw [← List.append_cancel_left hnames]
    simp

/-- A document of a collection, and one of the collection above whose name ends in the other's. -/
theorem paths_apart_language :
    Opened "sync" (.directory "sync" "language.de") ∧ Opened "sync" (.directory "sync" "language") ∧
      Name.isValid "system.site" = true ∧ Name.isValid "de.system.site" = true ∧
      ∃ p q hidden, filePath "sync" "language.de" "system.site" = .ok p ∧
        filePath "sync" "language" "de.system.site" = .ok q ∧ temporary p = .ok hidden ∧
        Path.names p ≠ Path.names q ∧ Path.names hidden ≠ Path.names q := by
  have hde : Opened "sync" (.directory "sync" "language.de") :=
    opened_iff.mpr ⟨_, by decide +kernel, rfl⟩
  have hlanguage : Opened "sync" (.directory "sync" "language") :=
    opened_iff.mpr ⟨_, by decide +kernel, rfl⟩
  obtain ⟨p, q, hidden, hp, hq, hhidden, -, -, -, -, hinj, -, hapart, -⟩ :=
    paths_apart hde hlanguage (n := "system.site") (m := "de.system.site") (by decide +kernel)
      (by decide +kernel)
  refine ⟨hde, hlanguage, by decide +kernel, by decide +kernel, p, q, hidden, hp, hq, hhidden, ?_,
    hapart⟩
  intro hnames
  exact absurd (hinj hnames).1 (by decide)

end LayeredConfig.Directory
