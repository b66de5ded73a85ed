import LayeredConfig.FileTree
import LayeredConfig.Proofs.Path
/-!
# File trees

A tree is sound if each place has one entry, in a directory. What a path leads to depends on its way: if
all places on the way are directories, it leads to the last of them (`walk_of_made`), and if some are
missing and no file stands there, nothing is found (`walk_of_not_made`). Then the missing ones can be
made (`makeDirectories_of_free`).
-/

namespace LayeredConfig.FileTree

variable {t u : FileTree} {p q : Place} {e : Entry} {content : ByteArray} {name : String}

/-! ## Entries -/

theorem find?_eq_some {es : List (Place × Entry)} (h : find? p es = some e) : (p, e) ∈ es := by
  induction es with
  | nil => simp [find?] at h
  | cons x rest ih =>
    rw [find?] at h
    split at h
    · next hx =>
      cases h
      simp [← hx]
    · exact List.mem_cons_of_mem x (ih h)

theorem find?_of_mem {es : List (Place × Entry)} (hes : es.Pairwise fun x y => x.1 ≠ y.1)
    (h : (p, e) ∈ es) : find? p es = some e := by
  induction es with
  | nil => simp at h
  | cons x rest ih =>
    obtain ⟨hx, hrest⟩ := List.pairwise_cons.mp hes
    rw [find?]
    rcases List.mem_cons.mp h with rfl | h
    · rw [if_pos rfl]
    · rw [if_neg (hx _ h), ih hrest h]

theorem find?_filter (p q : Place) (es : List (Place × Entry)) :
    find? q (es.filter fun x => x.1 ≠ p) = if p = q then none else find? q es := by
  induction es with
  | nil => simp [find?]
  | cons x rest ih =>
    by_cases hx : x.1 = p
    · by_cases hq : p = q <;> simp_all [find?]
    · by_cases hq : p = q
      · subst hq
        simp_all [find?]
      · simp only [ne_eq, hx, not_false_eq_true, decide_true, List.filter_cons_of_pos, find?, ih, hq,
          if_false]

@[simp] theorem at?_top (t : FileTree) : t.at? [] = some .directory := if_pos rfl

theorem at?_put (t : FileTree) (hp : p ≠ []) (e : Entry) (q : Place) :
    (t.put p e).at? q = if p = q then some e else t.at? q := by
  by_cases hq : q = []
  · subst hq
    simp [hp]
  · rw [at?, at?, if_neg hq, if_neg hq, put, find?, find?_filter]
    split <;> rfl

theorem at?_drop (t : FileTree) (hp : p ≠ []) (q : Place) :
    (t.drop p).at? q = if p = q then none else t.at? q := by
  by_cases hq : q = []
  · subst hq
    simp [hp]
  · rw [at?, at?, if_neg hq, if_neg hq, drop, find?_filter]

theorem at?_drop_put (t : FileTree) (hp : p ≠ []) (e : Entry) (q : Place) :
    ((t.put p e).drop p).at? q = if p = q then none else t.at? q := by
  rw [at?_drop _ hp, at?_put _ hp]
  split <;> rfl

/-- A tree with one entry at each place but the top, and each in a directory. -/
structure Sound (t : FileTree) : Prop where
  distinct : t.entries.Pairwise fun x y => x.1 ≠ y.1
  proper : ∀ x ∈ t.entries, x.1 ≠ []
  closed : ∀ p name, t.at? (p ++ [name]) ≠ none → t.at? p = some .directory

namespace Sound

theorem mem_entries (h : t.Sound) : (p, e) ∈ t.entries ↔ p ≠ [] ∧ t.at? p = some e := by
  constructor
  · intro hmem
    have hp := h.proper _ hmem
    exact ⟨hp, by rw [at?, if_neg hp, find?_of_mem h.distinct hmem]⟩
  · rintro ⟨hp, hat⟩
    rw [at?, if_neg hp] at hat
    exact find?_eq_some hat

/-- What something is below of is a directory. -/
theorem directory_above (h : t.Sound) (hq : q ≠ []) (hat : t.at? (p ++ q) ≠ none) :
    t.at? p = some .directory := by
  induction q using List.reverseRecOn with
  | nil => exact (hq rfl).elim
  | append_singleton q name ih =>
    rw [← List.append_assoc] at hat
    have habove := h.closed _ name hat
    by_cases hnil : q = []
    · rwa [hnil, List.append_nil] at habove
    · exact ih hnil (by simp [habove])

theorem directory_dropLast (h : t.Sound) (hp : t.at? p = some .directory) :
    t.at? p.dropLast = some .directory := by
  rcases List.eq_nil_or_concat' p with rfl | ⟨before, last, rfl⟩
  · exact hp
  · rw [List.dropLast_concat]
    exact h.closed before last (by simp [hp])

/-- An entry is put into a directory. Nothing is lost, unless a file takes a directory's place. -/
theorem put (h : t.Sound) (hp : t.at? p = some .directory)
    (he : e = .directory ∨ t.at? (p ++ [name]) ≠ some .directory) : (t.put (p ++ [name]) e).Sound where
  distinct := by
    refine List.pairwise_cons.mpr ⟨fun x hx heq => ?_, h.distinct.filter _⟩
    simp [← heq] at hx
  proper x hx := by
    rcases List.mem_cons.mp hx with rfl | hx
    · simp
    · exact h.proper x (List.mem_filter.mp hx).1
  closed q other hat := by
    rw [at?_put t (by simp)] at hat ⊢
    have hdirectory : t.at? q = some .directory := by
      split at hat
      · next heq => rwa [← (List.append_inj' heq rfl).1]
      · exact h.closed q other hat
    split
    · next heq =>
      rw [← heq] at hdirectory
      rcases he with rfl | he
      · rfl
      · exact (he hdirectory).elim
    · exact hdirectory

/-- A file is taken out. -/
theorem drop (h : t.Sound) (hp : t.at? p = some (.file content)) : (t.drop p).Sound where
  distinct := h.distinct.filter _
  proper x hx := h.proper x (List.mem_filter.mp hx).1
  closed q other hat := by
    have hne : p ≠ [] := by
      rintro rfl
      cases hp
    rw [at?_drop t hne] at hat ⊢
    have hdirectory : t.at? q = some .directory := by
      split at hat
      · exact (hat rfl).elim
      · exact h.closed q other hat
    split
    · next heq =>
      rw [← heq, hp] at hdirectory
      cases hdirectory
    · exact hdirectory

theorem mem_children (h : t.Sound) : (name, e) ∈ t.children p ↔ t.at? (p ++ [name]) = some e := by
  rw [children, List.mem_filterMap]
  constructor
  · rintro ⟨x, hx, hchild⟩
    split at hchild
    · next last hlast =>
      obtain ⟨before, hbefore⟩ := List.getLast?_eq_some_iff.mp hlast
      split at hchild
      · next hp =>
        cases hchild
        rw [hbefore, List.dropLast_concat] at hp
        rw [← hp, ← hbefore]
        exact (h.mem_entries.mp hx).2
      · cases hchild
    · cases hchild
  · intro hat
    refine ⟨(p ++ [name], e), h.mem_entries.mpr ⟨by simp, hat⟩, ?_⟩
    simp

/-- Nothing is below a place that nothing is in. -/
theorem none_below (h : t.Sound) (hp : t.children p = []) (hq : q ≠ []) : t.at? (p ++ q) = none := by
  obtain ⟨name, rest, rfl⟩ := List.exists_cons_of_ne_nil hq
  by_contra hsome
  have hchild : t.at? (p ++ [name]) ≠ none := by
    by_cases hrest : rest = []
    · subst hrest
      exact hsome
    · rw [List.append_cons] at hsome
      rw [h.directory_above hrest hsome]
      nofun
  obtain ⟨e, he⟩ := Option.ne_none_iff_exists'.mp hchild
  have hmem := h.mem_children.mpr he
  rw [hp] at hmem
  cases hmem

theorem mem_directoriesBelow (h : t.Sound) :
    q ∈ t.directoriesBelow p ↔ q ≠ [] ∧ t.at? (p ++ q) = some .directory := by
  rw [directoriesBelow, List.mem_filterMap]
  constructor
  · rintro ⟨⟨place, e⟩, hx, hbelow⟩
    split at hbelow
    · next hp =>
      simp only [Option.some.injEq, Bool.and_eq_true, Bool.not_eq_true', decide_eq_true_eq] at hbelow hp
      obtain ⟨⟨hfile, htake⟩, hlength⟩ := hp
      subst hbelow
      refine ⟨by simp; omega, ?_⟩
      have hplace : p ++ place.drop p.length = place :=
        calc p ++ place.drop p.length = place.take p.length ++ place.drop p.length := by rw [htake]
          _ = place := List.take_append_drop _ _
      rw [hplace, (h.mem_entries.mp hx).2]
      cases e with
      | file => cases hfile
      | directory => rfl
    · cases hbelow
  · rintro ⟨hq, hat⟩
    refine ⟨(p ++ q, .directory), h.mem_entries.mpr ⟨by simp [hq], hat⟩, ?_⟩
    have hlength : 0 < q.length := List.length_pos_iff.mpr hq
    simp [Entry.isFile, hlength]

end Sound

/-! ## Ways -/

/-- The place that a name leads to: two dots lead back. -/
def step (p : Place) (name : String) : Place := if name = ".." then p.dropLast else p ++ [name]

/-- The place that some names lead to. -/
def reach (p : Place) (names : List String) : Place := names.foldl step p

/-- The places on the way that some names lead, from the first to the last. -/
def way (p : Place) : List String → List Place
  | [] => [p]
  | name :: rest => p :: way (step p name) rest

variable {names xs ys : List String}

theorem reach_append (p : Place) (xs ys : List String) :
    reach p (xs ++ ys) = reach (reach p xs) ys := List.foldl_append

theorem start_mem_way (p : Place) (names : List String) : p ∈ way p names := by
  cases names <;> simp [way]

theorem reach_mem_way (p : Place) (names : List String) : reach p names ∈ way p names := by
  induction names generalizing p with
  | nil => simp [way, reach]
  | cons name rest ih =>
    rw [way]
    exact List.mem_cons_of_mem p (ih (step p name))

theorem mem_way_append : q ∈ way p (xs ++ ys) ↔ q ∈ way p xs ∨ q ∈ way (reach p xs) ys := by
  induction xs generalizing p with
  | nil =>
    have hp := start_mem_way p ys
    simp only [List.nil_append, way, List.mem_singleton, reach, List.foldl_nil]
    constructor
    · exact Or.inr
    · rintro (rfl | h)
      · exact hp
      · exact h
  | cons name xs ih =>
    rw [List.cons_append, way, way, List.mem_cons, List.mem_cons, ih, or_assoc]
    rfl

theorem mem_way_concat : q ∈ way p (xs ++ [name]) ↔ q ∈ way p xs ∨ q = step (reach p xs) name := by
  rw [mem_way_append, way, way, List.mem_cons, List.mem_singleton, ← or_assoc]
  refine or_congr_left (or_iff_left_of_imp ?_)
  rintro rfl
  exact reach_mem_way p xs

/-- Names without two dots lead to the place that they are added to. -/
theorem reach_of_plain (h : ".." ∉ names) (p : Place) : reach p names = p ++ names := by
  induction names generalizing p with
  | nil => simp [reach]
  | cons name rest ih =>
    rw [List.mem_cons, not_or] at h
    have hstep : step p name = p ++ [name] := if_neg (Ne.symm h.1)
    show reach (step p name) rest = _
    rw [hstep, ih h.2]
    simp

/-- The places on the way over names without two dots. -/
theorem mem_way_of_plain (h : ".." ∉ names) :
    q ∈ way p names ↔ ∃ front, front <+: names ∧ q = p ++ front := by
  induction names generalizing p with
  | nil => simp [way, List.prefix_nil]
  | cons name rest ih =>
    rw [List.mem_cons, not_or] at h
    have hstep : step p name = p ++ [name] := if_neg (Ne.symm h.1)
    rw [way, List.mem_cons, hstep, ih h.2]
    constructor
    · rintro (rfl | ⟨front, hfront, rfl⟩)
      · exact ⟨[], List.nil_prefix, by simp⟩
      · exact ⟨name :: front, List.prefix_cons_iff.mpr (.inr ⟨front, rfl, hfront⟩), by simp⟩
    · rintro ⟨front, hfront, rfl⟩
      rcases List.prefix_cons_iff.mp hfront with rfl | ⟨front', rfl, hfront'⟩
      · exact .inl (by simp)
      · exact .inr ⟨front', hfront', by simp⟩

/-- All places on a way are directories. -/
def Made (t : FileTree) (p : Place) (names : List String) : Prop :=
  ∀ q ∈ way p names, t.at? q = some .directory

/-- No file stands on a way, and no name on it is too long. -/
structure Free (t : FileTree) (p : Place) (names : List String) : Prop where
  short : ∀ name ∈ names, name.utf8ByteSize ≤ maxNameBytes
  clear : ∀ q ∈ way p names, ∀ content, t.at? q ≠ some (.file content)

theorem made_cons : t.Made p (name :: xs) ↔ t.at? p = some .directory ∧ t.Made (step p name) xs := by
  simp [Made, way]

theorem made_concat : t.Made p (xs ++ [name]) ↔
    t.Made p xs ∧ t.at? (step (reach p xs) name) = some .directory := by
  simp only [Made, mem_way_concat]
  constructor
  · intro h
    exact ⟨fun q hq => h q (.inl hq), h _ (.inr rfl)⟩
  · rintro ⟨h, hlast⟩ q (hq | rfl)
    · exact h q hq
    · exact hlast

theorem Made.reach (h : t.Made p names) : t.at? (reach p names) = some .directory :=
  h _ (reach_mem_way p names)

theorem Made.append_left (h : t.Made p (xs ++ ys)) : t.Made p xs :=
  fun q hq => h q (mem_way_append.mpr (.inl hq))

theorem Free.tail (h : t.Free p (name :: xs)) : t.Free (step p name) xs where
  short n hn := h.short n (List.mem_cons_of_mem name hn)
  clear q hq := h.clear q (List.mem_cons_of_mem p hq)

theorem Free.append_left (h : t.Free p (xs ++ ys)) : t.Free p xs where
  short n hn := h.short n (List.mem_append_left ys hn)
  clear q hq := h.clear q (mem_way_append.mpr (.inl hq))

/-- No file stands on a way that is made. -/
theorem Made.free (h : t.Made p names) (hshort : ∀ name ∈ names, name.utf8ByteSize ≤ maxNameBytes) :
    t.Free p names where
  short := hshort
  clear q hq content hat := by
    rw [h q hq] at hat
    cases hat

/-- Putting an entry beside a way leaves the way as it is. -/
theorem Made.put (h : t.Made p names) (hq : q ∉ way p names) (hne : q ≠ []) (e : Entry) :
    (t.put q e).Made p names := by
  intro r hr
  rw [at?_put _ hne, if_neg (by rintro rfl; exact hq hr)]
  exact h r hr

/-! ## Following paths -/

theorem walk_append (t : FileTree) (p : Place) (xs ys : List String) :
    t.walk p (xs ++ ys) = (t.walk p xs).bind fun q => t.walk q ys := by
  induction xs generalizing p with
  | nil => rfl
  | cons name xs ih =>
    rw [List.cons_append, walk, walk]
    split
    · rfl
    · rfl
    · split
      · exact ih p
      · split
        · exact ih p.dropLast
        · split
          · rfl
          · exact ih (p ++ [name])

/-- Where all places on its way are directories, a path leads to the last one. -/
theorem walk_of_made {ss : List String} (h : t.Made p (ss.filter (· ≠ ".")))
    (hshort : ∀ s ∈ ss.filter (· ≠ "."), s.utf8ByteSize ≤ maxNameBytes) :
    t.walk p ss = .ok (reach p (ss.filter (· ≠ "."))) := by
  induction ss generalizing p with
  | nil => rfl
  | cons s rest ih =>
    have hp : t.at? p = some .directory := h p (start_mem_way p _)
    rw [walk, hp]
    by_cases hdot : s = "."
    · simp only [hdot, if_true] at h hshort ⊢
      exact ih h hshort
    · rw [List.filter_cons_of_pos (by simpa using hdot)] at h hshort ⊢
      have hsize : ¬ maxNameBytes < s.utf8ByteSize := Nat.not_lt.mpr (hshort s (by simp))
      have hrest := ih (made_cons.mp h).2 fun n hn => hshort n (List.mem_cons_of_mem s hn)
      by_cases hback : s = ".."
      · simpa [hdot, hback, step, reach] using hrest
      · simpa [hdot, hback, hsize, step, reach] using hrest

/-- A path that leads to a directory has a way that is made, and no name on it is too long. -/
theorem made_of_walk {ss : List String} (h : t.walk p ss = .ok q) (hq : t.at? q = some .directory) :
    t.Made p (ss.filter (· ≠ ".")) ∧
      (∀ s ∈ ss.filter (· ≠ "."), s.utf8ByteSize ≤ maxNameBytes) ∧
      q = reach p (ss.filter (· ≠ ".")) := by
  induction ss generalizing p with
  | nil =>
    cases h
    exact ⟨by simpa [Made, way] using hq, by simp, rfl⟩
  | cons s rest ih =>
    unfold walk at h
    split at h
    · cases h
    · cases h
    · next hp =>
      by_cases hdot : s = "."
      · simp only [hdot, if_true] at h ⊢
        exact ih h
      · rw [if_neg hdot] at h
        rw [List.filter_cons_of_pos (by simpa using hdot)]
        have hstep : t.walk (step p s) rest = .ok q ∧ s.utf8ByteSize ≤ maxNameBytes := by
          by_cases hback : s = ".."
          · rw [if_pos hback] at h
            rw [step, if_pos hback, hback]
            exact ⟨h, by decide⟩
          · rw [if_neg hback] at h
            rw [step, if_neg hback]
            split at h
            · cases h
            · next hsize => exact ⟨h, Nat.not_lt.mp hsize⟩
        obtain ⟨hmade, hshort, hreach⟩ := ih hstep.1
        refine ⟨made_cons.mpr ⟨hp, hmade⟩, ?_, hreach⟩
        intro name hname
        rcases List.mem_cons.mp hname with rfl | hname
        · exact hstep.2
        · exact hshort name hname

/-- Where some are missing, the path is not found, or there is nothing at its end. -/
theorem walk_of_not_made {ss : List String} (hfree : t.Free p (ss.filter (· ≠ ".")))
    (h : ¬ t.Made p (ss.filter (· ≠ "."))) :
    t.walk p ss = .error .notFound ∨
      t.walk p ss = .ok (reach p (ss.filter (· ≠ "."))) ∧
        t.at? (reach p (ss.filter (· ≠ "."))) = none := by
  induction ss generalizing p with
  | nil =>
    refine .inr ⟨rfl, ?_⟩
    cases hp : t.at? p with
    | none => exact hp
    | some e =>
      cases e with
      | file content => exact (hfree.clear p (start_mem_way p _) content hp).elim
      | directory => exact (h (by simpa [Made, way] using hp)).elim
  | cons s rest ih =>
    rw [walk]
    cases hp : t.at? p with
    | none => exact .inl rfl
    | some e =>
      cases e with
      | file content => exact (hfree.clear p (start_mem_way p _) content hp).elim
      | directory =>
        by_cases hdot : s = "."
        · simp only [hdot, if_true] at h hfree ⊢
          exact ih hfree h
        · rw [List.filter_cons_of_pos (by simpa using hdot)] at h hfree ⊢
          have hsize : ¬ maxNameBytes < s.utf8ByteSize := Nat.not_lt.mpr (hfree.short s (by simp))
          have hrest := ih hfree.tail fun hmade => h (made_cons.mpr ⟨hp, hmade⟩)
          by_cases hback : s = ".."
          · simpa [hdot, hback, step, reach] using hrest
          · simpa [hdot, hback, hsize, step, reach] using hrest

section Directories

variable {path : String}

theorem filter_locate (path : String) :
    (Path.steps path ++ if Path.endsInSlash path then ["."] else []).filter (· ≠ ".") =
      Path.names path := by
  split <;> simp [Path.names]

theorem locate_of_made (hcheck : checkPath path = .ok ()) (hfree : t.Free [] (Path.names path))
    (h : t.Made [] (Path.names path)) : t.locate path = .ok (reach [] (Path.names path)) := by
  rw [← filter_locate] at h hfree ⊢
  rw [locate, hcheck]
  exact walk_of_made h hfree.short

theorem locate_of_not_made (hcheck : checkPath path = .ok ()) (hfree : t.Free [] (Path.names path))
    (h : ¬ t.Made [] (Path.names path)) :
    t.locate path = .error .notFound ∨
      t.locate path = .ok (reach [] (Path.names path)) ∧ t.at? (reach [] (Path.names path)) = none := by
  rw [← filter_locate] at h hfree ⊢
  rw [locate, hcheck]
  exact walk_of_not_made hfree h

theorem stat_of_made (hcheck : checkPath path = .ok ()) (hfree : t.Free [] (Path.names path))
    (h : t.Made [] (Path.names path)) : t.stat path = .ok .directory := by
  rw [stat, locate_of_made hcheck hfree h]
  simp only [bind, Except.bind, h.reach]

theorem stat_of_not_made (hcheck : checkPath path = .ok ()) (hfree : t.Free [] (Path.names path))
    (h : ¬ t.Made [] (Path.names path)) : t.stat path = .error .notFound := by
  rw [stat]
  rcases locate_of_not_made hcheck hfree h with h | ⟨h, hat⟩
  · rw [h]
    rfl
  · rw [h]
    simp only [bind, Except.bind, hat]

theorem list_of_made (hcheck : checkPath path = .ok ()) (hfree : t.Free [] (Path.names path))
    (h : t.Made [] (Path.names path)) :
    t.list path = .ok (t.children (reach [] (Path.names path))) := by
  rw [list, locate_of_made hcheck hfree h]
  simp only [bind, Except.bind, h.reach]

theorem list_of_not_made (hcheck : checkPath path = .ok ()) (hfree : t.Free [] (Path.names path))
    (h : ¬ t.Made [] (Path.names path)) : t.list path = .error .notFound := by
  rw [list]
  rcases locate_of_not_made hcheck hfree h with h | ⟨h, hat⟩
  · rw [h]
    rfl
  · rw [h]
    simp only [bind, Except.bind, hat]

end Directories

/-! ## The end of a path -/

/-- A path that leads over some names to a last one. -/
structure Leads (path : String) (above : List String) (name : String) : Prop where
  check : checkPath path = .ok ()
  steps : ∃ ss, Path.steps path = ss ++ [name] ∧ ss.filter (· ≠ ".") = above
  slash : Path.endsInSlash path = false
  plain : name ≠ "." ∧ name ≠ ".."
  short : name.utf8ByteSize ≤ maxNameBytes

namespace Leads

variable {path other : String} {above : List String}

theorem walk_of_made (hpath : Leads path above name) (hfree : t.Free [] above)
    (h : t.Made [] above) : t.walk [] (Path.steps path) = .ok (reach [] above ++ [name]) := by
  obtain ⟨ss, hsteps, rfl⟩ := hpath.steps
  rw [hsteps, walk_append, FileTree.walk_of_made h hfree.short]
  show t.walk (reach [] (ss.filter (· ≠ "."))) [name] = _
  rw [walk, h.reach]
  simp [hpath.plain, Nat.not_lt.mpr hpath.short, walk]

theorem walk_of_not_made (hpath : Leads path above name) (hfree : t.Free [] above)
    (h : ¬ t.Made [] above) : t.walk [] (Path.steps path) = .error .notFound := by
  obtain ⟨ss, hsteps, rfl⟩ := hpath.steps
  rw [hsteps, walk_append]
  rcases FileTree.walk_of_not_made hfree h with h | ⟨h, hat⟩
  · rw [h]
    rfl
  · rw [h]
    show t.walk (reach [] (ss.filter (· ≠ "."))) [name] = _
    rw [walk, hat]

theorem stat_of_made (hpath : Leads path above name) (hfree : t.Free [] above) (h : t.Made [] above) :
    t.stat path = match t.at? (reach [] above ++ [name]) with
      | some e => .ok e
      | none => .error .notFound := by
  have hlocate : t.locate path = .ok (reach [] above ++ [name]) := by
    rw [locate, hpath.check, hpath.slash]
    simp [bind, Except.bind, hpath.walk_of_made hfree h]
  rw [stat, hlocate]
  rfl

theorem stat_of_not_made (hpath : Leads path above name) (hfree : t.Free [] above)
    (h : ¬ t.Made [] above) : t.stat path = .error .notFound := by
  rw [stat, locate, hpath.check, hpath.slash]
  simp [bind, Except.bind, hpath.walk_of_not_made hfree h]

theorem slot_of_made (hpath : Leads path above name) (hfree : t.Free [] above) (h : t.Made [] above)
    (dots : OsFault) : t.slot path dots = .ok (reach [] above ++ [name]) := by
  obtain ⟨ss, hsteps, -⟩ := hpath.steps
  have hlast : (Path.steps path).getLast? = some name := by rw [hsteps, List.getLast?_concat]
  rw [slot, hpath.check]
  simp [bind, Except.bind, hpath.walk_of_made hfree h, hlast, hpath.plain]

theorem slot_of_not_made (hpath : Leads path above name) (hfree : t.Free [] above)
    (h : ¬ t.Made [] above) (dots : OsFault) : t.slot path dots = .error .notFound := by
  rw [slot, hpath.check]
  simp [bind, Except.bind, hpath.walk_of_not_made hfree h]

/-- A file is written where there is no directory. -/
theorem write_of_made (hpath : Leads path above name) (hfree : t.Free [] above) (h : t.Made [] above)
    (hat : t.at? (reach [] above ++ [name]) ≠ some .directory) (content : ByteArray) :
    t.write path content = .ok (t.put (reach [] above ++ [name]) (.file content)) := by
  rw [write, hpath.slot_of_made hfree h]
  simp only [bind, Except.bind]
  split
  · next hdirectory => exact (hat hdirectory).elim
  · rw [hpath.slash]
    rfl
  · rw [hpath.slash]
    rfl

theorem remove_of_made (hpath : Leads path above name) (hfree : t.Free [] above) (h : t.Made [] above)
    {content : ByteArray} (hat : t.at? (reach [] above ++ [name]) = some (.file content)) :
    t.remove path = .ok (t.drop (reach [] above ++ [name])) := by
  rw [remove, hpath.slot_of_made hfree h]
  simp [bind, Except.bind, hat, hpath.slash]

theorem remove_of_none (hpath : Leads path above name) (hfree : t.Free [] above)
    (hat : t.at? (reach [] above ++ [name]) = none) : t.remove path = .error .notFound := by
  rw [remove]
  by_cases h : t.Made [] above
  · rw [hpath.slot_of_made hfree h]
    simp [bind, Except.bind, hat]
  · rw [hpath.slot_of_not_made hfree h]
    rfl

/-- A file is moved where there is no directory. -/
theorem rename_of_made {last : String} (hpath : Leads path above name) (hother : Leads other above last)
    (hfree : t.Free [] above) (h : t.Made [] above) {content : ByteArray}
    (hat : t.at? (reach [] above ++ [name]) = some (.file content))
    (hlast : t.at? (reach [] above ++ [last]) ≠ some .directory) :
    t.rename path other =
      .ok ((t.drop (reach [] above ++ [name])).put (reach [] above ++ [last]) (.file content)) := by
  rw [rename, hpath.slot_of_made hfree h, hother.slot_of_made hfree h]
  simp only [bind, Except.bind, hat, hpath.slash, hother.slash, Bool.or_self, Bool.false_eq_true,
    if_false]

end Leads

/-! ## Making directories -/

/-- A tree in which the places on a way were made directories, and nothing else. -/
structure Paved (t : FileTree) (p : Place) (names : List String) (u : FileTree) : Prop where
  sound : u.Sound
  at? : ∀ q, u.at? q = if q ∈ way p names then some .directory else t.at? q

theorem Paved.refl (ht : t.Sound) (h : t.Made p names) : Paved t p names t where
  sound := ht
  at? q := by
    split
    · next hq => exact h q hq
    · rfl

theorem Paved.made (h : Paved t p names u) : u.Made p names := by
  intro q hq
  rw [h.at?, if_pos hq]

/-- More of a way is made. -/
theorem Paved.append {v : FileTree} (hv : Paved t p xs v) (hu : Paved v p (xs ++ ys) u) :
    Paved t p (xs ++ ys) u where
  sound := hu.sound
  at? q := by
    rw [hu.at?]
    split
    · rfl
    · next hq => rw [hv.at?, if_neg fun hmem => hq (mem_way_append.mpr (.inl hmem))]

/-- Nothing that was free is blocked. -/
theorem Paved.free (h : Paved t p names u) (hfree : t.Free q xs) : u.Free q xs where
  short := hfree.short
  clear r hr content := by
    rw [h.at?]
    split
    · nofun
    · exact hfree.clear r hr content

/-- The end of a way is made a directory. -/
theorem Paved.put {above : List String} (ht : t.Sound) (h : t.Made [] above) (hname : name ≠ "..") :
    Paved t [] (above ++ [name]) (t.put (reach [] above ++ [name]) .directory) where
  sound := ht.put h.reach (.inl rfl)
  at? q := by
    have hplace : step (reach [] above) name = reach [] above ++ [name] := if_neg hname
    rw [at?_put t (by simp)]
    by_cases hq : reach [] above ++ [name] = q
    · rw [if_pos hq, if_pos (mem_way_concat.mpr (.inr (hplace.trans hq).symm))]
    · rw [if_neg hq]
      split
      · next hmem =>
        rcases mem_way_concat.mp hmem with hmem | heq
        · exact h q hmem
        · exact (hq (hplace.symm.trans heq.symm)).elim
      · rfl

section Ends

variable {path : String} {above : List String} (hcheck : checkPath path = .ok ())
  (hnames : Path.names path = above ++ [name]) (hfree : t.Free [] (above ++ [name]))

include hcheck hnames hfree

/-- The end of a way is there already. -/
theorem paved_of_directory (ht : t.Sound) (h : t.Made [] above)
    (hat : t.at? (step (reach [] above) name) = some .directory) :
    t.isDirectory path = true ∧ Paved t [] (above ++ [name]) t := by
  have hmade : t.Made [] (above ++ [name]) := made_concat.mpr ⟨h, hat⟩
  rw [isDirectory, stat_of_made hcheck (hnames ▸ hfree) (hnames ▸ hmade)]
  exact ⟨rfl, .refl ht hmade⟩

/-- Where all of a way but its end is made, a directory can be made at its end, unless it ends in
dots. -/
theorem slot_of_trimmed (htrimmed : Path.Trimmed path) (h : t.Made [] above) (dots : OsFault) :
    t.slot path dots =
      if name = ".." then .error dots else .ok (reach [] above ++ [name]) := by
  obtain ⟨ss, hsteps, rfl⟩ := htrimmed.steps_eq hnames
  have hdot : name ≠ "." := by
    have hmem : name ∈ Path.names path := by simp [hnames]
    simpa using (List.mem_filter.mp hmem).2
  have hsize : ¬ maxNameBytes < name.utf8ByteSize := Nat.not_lt.mpr (hfree.short name (by simp))
  have hwalk : t.walk [] (Path.steps path) = .ok (step (reach [] (ss.filter (· ≠ "."))) name) := by
    rw [hsteps, walk_append, walk_of_made h hfree.append_left.short]
    show t.walk (reach [] (ss.filter (· ≠ "."))) [name] = _
    rw [walk, h.reach]
    by_cases hback : name = ".."
    · simp [hback, step, walk]
    · simp [hdot, hback, hsize, step, walk]
  have hlast : (Path.steps path).getLast? = some name := by rw [hsteps, List.getLast?_concat]
  rw [slot, hcheck]
  by_cases hback : name = ".."
  · simp [bind, Except.bind, hwalk, hlast, hback]
  · simp [bind, Except.bind, hwalk, hlast, hdot, hback, step]

/-- Where all of a way but its end is made, its end is made, or there already. -/
theorem makeDirectory_last (ht : t.Sound) (htrimmed : Path.Trimmed path) (h : t.Made [] above) :
    (∃ u, t.makeDirectory path = .ok u ∧ Paved t [] (above ++ [name]) u) ∨
      t.makeDirectory path = .error .alreadyExists ∧ t.isDirectory path = true ∧
        Paved t [] (above ++ [name]) t := by
  have hslot := slot_of_trimmed hcheck hnames hfree htrimmed h .alreadyExists
  by_cases hback : name = ".."
  · right
    rw [if_pos hback] at hslot
    refine ⟨by rw [makeDirectory, hslot]; rfl, paved_of_directory hcheck hnames hfree ht h ?_⟩
    rw [step, if_pos hback]
    exact ht.directory_dropLast h.reach
  · rw [if_neg hback] at hslot
    have hplace : step (reach [] above) name = reach [] above ++ [name] := if_neg hback
    cases hat : t.at? (reach [] above ++ [name]) with
    | none =>
      left
      refine ⟨t.put (reach [] above ++ [name]) .directory, ?_, .put ht h hback⟩
      rw [makeDirectory, hslot]
      simp [bind, Except.bind, hat]
    | some e =>
      right
      cases e with
      | file content =>
        refine (hfree.clear _ (mem_way_concat.mpr (.inr rfl)) content ?_).elim
        rw [hplace, hat]
      | directory =>
        refine ⟨?_, paved_of_directory hcheck hnames hfree ht h (hplace ▸ hat)⟩
        rw [makeDirectory, hslot]
        simp [bind, Except.bind, hat]

end Ends

theorem makeDirectory_of_not_made {path : String} {above : List String}
    (hcheck : checkPath path = .ok ()) (htrimmed : Path.Trimmed path)
    (hnames : Path.names path = above ++ [name]) (hfree : t.Free [] above) (h : ¬ t.Made [] above) :
    t.makeDirectory path = .error .notFound := by
  obtain ⟨ss, hsteps, rfl⟩ := htrimmed.steps_eq hnames
  have hwalk : t.walk [] (Path.steps path) = .error .notFound := by
    rw [hsteps, walk_append]
    rcases walk_of_not_made hfree h with h | ⟨h, hat⟩
    · rw [h]
      rfl
    · rw [h]
      show t.walk (reach [] (ss.filter (· ≠ "."))) [name] = _
      rw [walk, hat]
  rw [makeDirectory, slot, hcheck]
  simp [bind, Except.bind, hwalk]

/-- A path without names leads to the top, which is there. -/
theorem makeDirectory_top {path : String} (hcheck : checkPath path = .ok ())
    (hnames : Path.names path = []) :
    t.makeDirectory path = .error .alreadyExists ∧ t.isDirectory path = true := by
  have hmade : t.Made [] [] := by simp [Made, way]
  have hfree : t.Free [] [] := ⟨by simp, by simp [way]⟩
  have hwalk : t.walk [] (Path.steps path) = .ok [] := by
    have hfilter : (Path.steps path).filter (· ≠ ".") = [] := hnames
    have h := walk_of_made (hfilter.symm ▸ hmade) (hfilter.symm ▸ hfree.short)
    rw [hfilter] at h
    exact h
  constructor
  · rw [makeDirectory, slot, hcheck]
    simp only [bind, Except.bind, hwalk]
    cases hlast : (Path.steps path).getLast? with
    | none => rfl
    | some s =>
      have hs : s = "." := by
        have hmem := List.mem_of_getLast? hlast
        by_contra hne
        have hname : s ∈ Path.names path := List.mem_filter.mpr ⟨hmem, by simpa using hne⟩
        rw [hnames] at hname
        cases hname
      simp [hs]
  · rw [isDirectory, stat_of_made hcheck (hnames ▸ hfree) (hnames ▸ hmade)]
    rfl

theorem checkPath_eq_ok {path : String} : checkPath path = .ok () ↔
    '\x00' ∉ path.toList ∧ path ≠ "" ∧ path.utf8ByteSize < pathLimit := by
  rw [checkPath]
  split
  · simp_all
  · split
    · simp_all
    · split
      · simp_all
      · simp_all

/-- Where a path can be followed, so can the path above it. -/
theorem checkPath_parent {path above rest : String}
    (h : path = above ++ "/" ++ rest ∨ (above = "" ∨ above = "/") ∧ path = above ++ rest)
    (hcheck : checkPath path = .ok ()) (hne : above ≠ "") : checkPath above = .ok () := by
  rw [checkPath_eq_ok] at hcheck ⊢
  have hpath : ∃ rest', path = above ++ rest' := by
    rcases h with rfl | ⟨-, rfl⟩
    · exact ⟨_, String.append_assoc⟩
    · exact ⟨_, rfl⟩
  obtain ⟨rest', rfl⟩ := hpath
  obtain ⟨hzero, -, hsize⟩ := hcheck
  rw [String.toList_append, List.mem_append, not_or] at hzero
  rw [String.utf8ByteSize_append] at hsize
  exact ⟨hzero.1, hne, by omega⟩

theorem length_parent {path above rest : String} (hrest : Path.names rest ≠ [])
    (h : path = above ++ "/" ++ rest ∨ (above = "" ∨ above = "/") ∧ path = above ++ rest) :
    above.length < path.length := by
  rcases h with rfl | ⟨-, rfl⟩
  · rw [String.length_append, String.length_append]
    have hslash : "/".length = 1 := rfl
    omega
  · rw [String.length_append]
    have hpos : rest.length ≠ 0 := by
      intro hzero
      rw [String.length_eq_zero_iff.mp hzero] at hrest
      exact hrest rfl
    omega

/-- All directories on a way that no file stands on can be made. -/
theorem makeDirectories_of_free {path : String} {fuel : Nat} (ht : t.Sound)
    (hcheck : path ≠ "" → checkPath path = .ok ()) (htrimmed : Path.Trimmed path)
    (hfree : t.Free [] (Path.names path)) (hfuel : path.length < fuel) :
    ∃ u, t.makeDirectories fuel path = (u, none) ∧ Paved t [] (Path.names path) u := by
  induction fuel generalizing path with
  | zero => omega
  | succ fuel ih =>
    rw [makeDirectories]
    by_cases hempty : path = ""
    · subst hempty
      exact ⟨t, rfl, .refl ht (by simp [Made, way, Path.names, Path.steps_empty])⟩
    · have hcheck := hcheck hempty
      rw [if_neg (by simpa using hempty)]
      rcases List.eq_nil_or_concat' (Path.names path) with hnames | ⟨above, name, hnames⟩
      · obtain ⟨hmake, hdirectory⟩ := makeDirectory_top (t := t) hcheck hnames
        rw [hmake, hnames]
        simp only [hdirectory, if_true]
        exact ⟨t, rfl, .refl ht (by simp [Made, way])⟩
      · rw [hnames] at hfree ⊢
        by_cases h : t.Made [] above
        · rcases makeDirectory_last hcheck hnames hfree ht htrimmed h with
            ⟨u, hmake, hpaved⟩ | ⟨hmake, hdirectory, hpaved⟩
          · rw [hmake]
            exact ⟨u, rfl, hpaved⟩
          · rw [hmake]
            simp only [hdirectory, if_true]
            exact ⟨t, rfl, hpaved⟩
        · -- The path above is made first, and then the directory itself.
          have hsome : Path.names path ≠ [] := by simp [hnames]
          obtain ⟨parent, rest, last, hparent, hptrimmed, hrest, -, hpath⟩ := Path.exists_parent hsome
          have hsplit := Path.names_of_parent hrest hpath
          rw [hnames] at hsplit
          obtain ⟨rfl, hlast⟩ := List.append_inj' hsplit rfl
          have hlength := length_parent (by simp [hrest]) hpath
          obtain ⟨v, hmakeParent, hv⟩ := ih (checkPath_parent hpath hcheck) hptrimmed
            hfree.append_left (by omega)
          rw [makeDirectory_of_not_made hcheck htrimmed hnames hfree.append_left h]
          simp only [hparent, hmakeParent]
          rcases makeDirectory_last hcheck hnames (hv.free hfree) hv.sound htrimmed hv.made with
            ⟨u, hmake, hpaved⟩ | ⟨hmake, hdirectory, hpaved⟩
          · rw [hmake]
            exact ⟨u, rfl, hv.append hpaved⟩
          · rw [hmake]
            simp only [hdirectory, if_true]
            exact ⟨v, rfl, hv.append hpaved⟩

end LayeredConfig.FileTree
