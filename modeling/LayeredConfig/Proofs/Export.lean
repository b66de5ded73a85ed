import LayeredConfig.Proofs.Layer
import LayeredConfig.Proofs.Transfer
/-!
# Export

An export is a transfer from the active shelf of a layer into the layer. Every write and deletion
goes through the filter, which looks at the active shelf once more. `run_exported` sums up what this
makes of each document of the wrapped shelf: what is ignored stays, and what is not becomes what the
active shelf has.
-/

namespace LayeredConfig.Layer

open World Transfer

variable {x : Layer} {mark : Option Nat} {c name : String} {w w' : World} {r r' : Report}
  {ds : Dict Document}

/-- Exports into a layer: transfers its active shelf into it. -/
def runExport (x : Layer) (mark : Option Nat) : Run World Report :=
  Transfer.run (Store.shelf x.active Name.defaultCollection) (x.store mark Name.defaultCollection)

/-- The documents of a collection on the shelves, before an export and after it. -/
structure Exported (x : Layer) (u v : Nat → Dict Document) : Prop where
  spared : ∀ name, x.ignores name = true → (v x.base).get? name = (u x.base).get? name
  gone : ∀ name, x.ignores name = false → (u x.active).get? name = none → (v x.base).get? name = none
  mirrored : ∀ name d, x.ignores name = false → (u x.active).get? name = some d →
    d.isEmpty = false → ∃ e, x.spliced name (some d) ((v x.base).get? name) = some (some e) ∧
      e.same d = true ∧ (x.keys name = [] → (v x.base).get? name = some e)

/-! ## One collection -/

/-- What writing a document through the filter leaves at a name. -/
def written (x : Layer) (active : Dict Document) (name : String) (d : Document)
    (o : Option Document) : Option Document :=
  match x.replaced name (active.get? name) (some d) with
  | some payload => x.kept name payload o
  | none => o

/-- What deleting a document through the filter leaves at a name. -/
def deleted (x : Layer) (name : String) (o : Option Document) : Option Document :=
  if x.ignores name then o else none

theorem changes_layer (hne : x.base ≠ x.active) (c : String) (w : World) :
    Changes (x.storage c) x.base c w (x.written (w.documents x.active c)) x.deleted where
  write name d u b v hu h := by
    rw [write_eq, hu.toOnlyOn.documents_of_ne hne.symm c] at h
    rw [written]
    cases hp : x.replaced name ((w.documents x.active c).get? name) (some d) with
    | none =>
      rw [hp] at h
      cases h
    | some payload =>
      rw [hp] at h
      rw [← (EStateM.Result.ok.inj h).2]
      exact x.wrote_sets c u name payload
  delete name u b v _ h := by
    rw [delete_eq] at h
    rw [deleted]
    split at h <;> rename_i hig <;> rw [← (EStateM.Result.ok.inj h).2]
    · rw [if_pos hig]
      exact .refl x.base c name u
    · rw [if_neg hig]
      exact .erase u x.base c name

theorem reads_layer
    (h : x.mergedMany (x.listed "" (w.documents x.active c) (w.documents x.base c))
      (w.documents x.active c) (w.documents x.base c) = some ds) :
    Reads (Store.shelf x.active c).storage (x.storage c) w
      ((w.documents x.active c).keys.filter (·.startsWith "")) (w.documents x.active c) ds where
  lists := Store.list_shelf x.active c w ""
  gives := Store.readMany_listed_shelf x.active c w
  holds := ⟨_, x.list_eq c w "", by rw [readMany_eq, h, Run.ofOption_some]⟩

/-- Where a transfer into a layer answers, all documents could be read. -/
theorem mergedMany_of_reconcile_into
    (h : reconcile (Store.shelf x.active c).storage (x.storage c) r w = .ok r' w') :
    ∃ ds, x.mergedMany (x.listed "" (w.documents x.active c) (w.documents x.base c))
      (w.documents x.active c) (w.documents x.base c) = some ds := by
  obtain ⟨listed, u₁, incoming, u₂, names, u₃, ds, u₄, h₁, h₂, h₃, h₄, -⟩ := reconcile_eq_ok h
  obtain ⟨rfl, rfl⟩ := Run.ok_unique (Store.list_shelf x.active c w "") h₁
  obtain ⟨rfl, rfl⟩ := Run.ok_unique (Store.readMany_listed_shelf x.active c w) h₂
  obtain ⟨rfl, rfl⟩ := Run.ok_unique (x.list_eq c w "") h₃
  rw [readMany_eq, Run.ofOption_eq_ok] at h₄
  exact ⟨ds, h₄.1⟩

/-- A document that could be written through the filter is as it is read through it. -/
theorem splice_of_write {u v : World} {b : Bool} {d : Document} (hne : x.base ≠ x.active)
    (hu : OnlyAt x.base c w u) (hig : x.ignores name = false)
    (hd : (w.documents x.active c).get? name = some d)
    (h : (x.storage c).write name d u = .ok b v) :
    Ignore.splice (some d) (x.keys name) d = some d := by
  rw [write_eq, hu.toOnlyOn.documents_of_ne hne.symm c, hd, x.replaced_of_not_ignores hig,
    spliced] at h
  cases hs : Ignore.splice (some d) (x.keys name) d with
  | none =>
    rw [hs] at h
    cases h
  | some s => rw [Ignore.splice_self hs]

theorem written_eq_some {active : Dict Document} {d : Document} (hig : x.ignores name = false)
    (hd : active.get? name = some d) (hnonempty : d.isEmpty = false)
    (hs : Ignore.splice (some d) (x.keys name) d = some d) (o : Option Document) :
    x.written active name d o = some d := by
  rw [written, hd, x.replaced_of_not_ignores hig, spliced, hs]
  exact x.kept_of_not_isEmpty hnonempty o

section Names

/-! What copying and pruning leave at one name, where the filter reads `held` there. -/

variable {active : Dict Document} {held o : Option Document}

theorem exported_of_ignores (hig : x.ignores name = true) (listed existing : Bool)
    (hheld : x.merged name (active.get? name) o = some held) :
    pruned (x.deleted name) listed existing
      (copied (x.written active name) (active.get? name) held o) = o := by
  rw [x.merged_of_ignores hig, Option.some.injEq] at hheld
  have hcopied : copied (x.written active name) (active.get? name) held o = o := by
    rw [← hheld]
    cases active.get? name <;> simp [copied]
  rw [hcopied, pruned, deleted, if_pos hig, ite_self]

theorem exported_of_none (hig : x.ignores name = false) (hnone : active.get? name = none)
    (hheld : x.merged name (active.get? name) o = some held) :
    pruned (x.deleted name) (active.contains name) held.isSome
      (copied (x.written active name) (active.get? name) held o) = none := by
  rw [x.merged_of_not_ignores hig] at hheld
  rw [hnone, copied, pruned, deleted, Dict.contains, hnone]
  cases o with
  | none =>
    rw [spliced, Option.some.injEq] at hheld
    simp [← hheld]
  | some d =>
    obtain ⟨s, -, rfl⟩ := Option.map_eq_some_iff.mp hheld
    simp [hig]

end Names

theorem reconcile_exported (hne : x.base ≠ x.active)
    (h : reconcile (Store.shelf x.active c).storage (x.storage c) r w = .ok r' w') :
    OnlyAt x.base c w w' ∧ x.Exported (w.documents · c) (w'.documents · c) := by
  obtain ⟨ds, hds⟩ := mergedMany_of_reconcile_into h
  have hreads := reads_layer hds
  obtain ⟨honly, hall⟩ := reconcile_documents (changes_layer hne c w) hreads h
  have hheld := x.merged_of_listed hds
  have hlisted := contains_listed_shelf w x.active c
  refine ⟨honly, fun name hig => ?_, fun name hig hnone => ?_, fun name d hig hd hnonempty => ?_⟩
  · exact (hall name).trans (exported_of_ignores hig _ _ (hheld name))
  · rw [hall name, hlisted]
    exact exported_of_none hig hnone (hheld name)
  · have hafter := hall name
    rw [hlisted, Dict.contains, hd, Option.isSome_some, pruned, Bool.not_true, Bool.and_false,
      if_neg Bool.false_ne_true] at hafter
    have hread := hheld name
    rw [hd, x.merged_of_not_ignores hig] at hread
    by_cases hsame : ∃ s, ds.get? name = some s ∧ s.same d = true
    · -- The document was not written, as it was read as the active one already.
      obtain ⟨s, hs, hsame⟩ := hsame
      rw [hs, copied, if_pos hsame] at hafter
      rw [hs] at hread
      rw [hafter]
      refine ⟨s, hread, hsame, fun hkeys => ?_⟩
      cases ho : (w.documents x.base c).get? name with
      | none =>
        rw [ho] at hread
        cases hread
      | some b =>
        rw [ho, spliced, hkeys] at hread
        exact Option.some.inj hread
    · have hdiffers : ∀ current, ds.get? name = some current → current.same d = false :=
        fun s hs => Bool.eq_false_iff.mpr fun hsd => hsame ⟨s, hs, hsd⟩
      obtain ⟨u, b, v, hu, hwrite⟩ := reconcile_writes (changes_layer hne c w) hreads h hd hdiffers
      have hsplice := splice_of_write hne hu hig hd hwrite
      have hwritten : (w'.documents x.base c).get? name = some d := by
        rw [hafter, copied_of_differs hdiffers, written_eq_some hig hd hnonempty hsplice]
      rw [hwritten]
      exact ⟨d, by rw [spliced, hsplice]; rfl, d.same_refl, fun _ => rfl⟩

/-! ## All collections -/

/-- An export gives each collection of the wrapped shelf what the active one has, but for what is
ignored. -/
theorem run_exported (hne : x.base ≠ x.active) (h : x.runExport mark w = .ok r w') :
    OnlyOn x.base w w' ∧ ∀ c, x.Exported (w.documents · c) (w'.documents · c) := by
  refine run_collections (Store.opens_shelf x.active) (x.opens_store mark) (fun _ => x.Exported) ?_ ?_ h
  · intro c w r r' w' h
    exact reconcile_exported hne h
  · intro w
    refine ⟨_, x.named w, Store.collectionNames_shelf x.active _ w, x.collectionNames_eq _ w,
      fun c hc _ htheirs => ?_⟩
    obtain ⟨hbase, hactive⟩ := x.documents_of_not_mem_named hc htheirs
    exact ⟨fun _ _ => rfl, fun name _ _ => by rw [hbase]; rfl,
      fun name d _ hd _ => by rw [hactive] at hd; cases hd⟩

/-- An export leaves the active shelf and all that is ignored as it is. Other documents that the
active shelf does not have are gone, and those that it has are read through the filter as they are
there. Where none of its keys are ignored, the wrapped shelf has the document itself. -/
theorem export_mirrors (hne : x.base ≠ x.active) (h : x.runExport mark w = .ok r w') :
    w'.shelves.get x.active = w.shelves.get x.active ∧ ∀ c name,
      (x.ignores name = true →
        (w'.documents x.base c).get? name = (w.documents x.base c).get? name) ∧
      (x.ignores name = false → (w.documents x.active c).get? name = none →
        (w'.documents x.base c).get? name = none) ∧
      ∀ d, x.ignores name = false → (w.documents x.active c).get? name = some d →
        d.isEmpty = false →
        (∃ e, ((x.store mark Name.defaultCollection).collection c >>= (·.storage.read name)) w' =
          .ok (some e) w' ∧ e.same d = true) ∧
        (x.keys name = [] → ∃ e, (w'.documents x.base c).get? name = some e ∧ e.same d = true) := by
  obtain ⟨honly, hexported⟩ := run_exported hne h
  refine ⟨honly.shelves _ hne.symm, fun c name => ⟨(hexported c).spared name, (hexported c).gone name,
    fun d hig hd hnonempty => ?_⟩⟩
  obtain ⟨e, hread, hsame, hkeys⟩ := (hexported c).mirrored name d hig hd hnonempty
  refine ⟨⟨e, ?_, hsame⟩, fun hnil => ⟨e, hkeys hnil, hsame⟩⟩
  refine (Run.bind_ok (x.collection_store _ w' mark c) _).trans ?_
  refine (x.read_eq c w' name).trans ?_
  have hactive : (w'.documents x.active c).get? name = some d := by
    rw [honly.documents_of_ne hne.symm c, hd]
  rw [hactive, x.replaced_of_not_ignores hig, hread, Run.ofOption_some]

theorem export_mirrors_site :
    site.base ≠ site.active ∧ ∃ r w', site.runExport none siteWorld = .ok r w' ∧
      w'.shelves.get site.active = siteWorld.shelves.get site.active ∧
      (site.ignores "system.site" = true ∧ (w'.documents site.base "").get? "system.site" =
        (siteWorld.documents site.base "").get? "system.site") ∧
      (site.ignores "system.file" = false ∧
        (siteWorld.documents site.active "").get? "system.file" = none ∧
        (w'.documents site.base "").get? "system.file" = none) ∧
      (site.ignores "user.settings" = false ∧ ∃ d e,
        (siteWorld.documents site.active "").get? "user.settings" = some d ∧ d.isEmpty = false ∧
        ((site.store none Name.defaultCollection).collection "" >>=
          (·.storage.read "user.settings")) w' = .ok (some e) w' ∧ e.same d = true) := by
  have hne : site.base ≠ site.active := by decide
  have hsite : site.ignores "system.site" = true := by decide +kernel
  have hfile : site.ignores "system.file" = false := by decide +kernel
  have hnone : (siteWorld.documents site.active "").get? "system.file" = none := rfl
  have huser : site.ignores "user.settings" = false := by decide +kernel
  have hanswers : Run.answers (fun _ _ => true) (site.runExport none siteWorld) = true := by
    decide +kernel
  obtain ⟨r, w', h, -⟩ := Run.exists_of_answers hanswers
  obtain ⟨hactive, hall⟩ := export_mirrors hne h
  obtain ⟨⟨e, hread, hsame⟩, -⟩ := (hall "" "user.settings").2.2 _ huser rfl rfl
  exact ⟨hne, r, w', h, hactive, ⟨hsite, (hall "" "system.site").1 hsite⟩,
    ⟨hfile, hnone, (hall "" "system.file").2.1 hfile hnone⟩, huser, _, e, rfl, rfl, hread, hsame⟩

end LayeredConfig.Layer
