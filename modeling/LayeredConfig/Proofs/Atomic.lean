import LayeredConfig.FileTree.Atomic
import LayeredConfig.Proofs.FileTree
import LayeredConfig.Proofs.Run
/-!
# Writing a file at once

A file is written through a hidden one beside it. Where no file stands on the way and no directory in
the places of the two, this answers: the way is there then, the file has the content, and the hidden one
is gone (`writeAtomically_of_free`).
-/

namespace LayeredConfig

namespace Path

theorem mem_parts_of_names {path name : String} (h : names path = [name]) :
    name ∈ Name.parts '/' path := by
  have hmem : name ∈ names path := by simp [h]
  exact (List.mem_filter.mp (List.mem_filter.mp hmem).1).1

end Path

namespace FileTree

open LayeredConfig.Path

variable {t u : FileTree} {path name part : String} {above : List String} {content : ByteArray}

theorem Leads.join (hpart : Path.Component part) (hshort : part.utf8ByteSize ≤ maxNameBytes)
    (hcheck : checkPath (Path.join path part) = .ok ()) :
    Leads (Path.join path part) (names path) part where
  check := hcheck
  steps := ⟨Path.steps path, steps_join hpart.not_slash hpart.ne_empty, rfl⟩
  slash := endsInSlash_join hpart.not_slash hpart.ne_empty
  plain := ⟨hpart.ne_dot, hpart.ne_dots⟩
  short := hshort

theorem Leads.names_eq (h : Leads path above name) : names path = above ++ [name] := by
  obtain ⟨ss, hsteps, rfl⟩ := h.steps
  rw [names, hsteps, List.filter_append]
  simp [h.plain.1]

/-! ## The directories above -/

theorem makeParents_of_free (ht : t.Sound) (hpath : Leads path above name) (hfree : t.Free [] above) :
    ∃ u, makeParents path t = .ok () u ∧ Paved t [] above u := by
  have hne : names path ≠ [] := by simp [hpath.names_eq]
  obtain ⟨parent, rest, last, hparent, htrimmed, hrest, -, hsplit⟩ := exists_parent hne
  have hnames := names_of_parent hrest hsplit
  rw [hpath.names_eq] at hnames
  obtain ⟨rfl, -⟩ := List.append_inj' hnames rfl
  have hrun : ∀ {u}, t.makeDirectories (path.length + 1) parent = (u, none) →
      makeParents path t = if parent.isEmpty || t.exists? parent then .ok () t else .ok () u := by
    intro u hmake
    rw [makeParents, hparent]
    refine (Run.bind_ok rfl _).trans ?_
    split
    · rfl
    · rw [hmake]
      rfl
  have hcheck := checkPath_parent hsplit hpath.check
  obtain ⟨u, hmake, hpaved⟩ := makeDirectories_of_free ht hcheck htrimmed hfree
    (Nat.lt_succ_of_lt (length_parent (by simp [hrest]) hsplit))
  rw [hrun hmake]
  split
  · next hthere =>
    -- The way is there already.
    refine ⟨t, rfl, .refl ht ?_⟩
    by_cases hempty : parent = ""
    · simp [hempty, names, steps_empty, Made, way]
    · by_contra hnot
      have hstat := stat_of_not_made (hcheck hempty) hfree hnot
      simp [hempty, exists?, hstat] at hthere
  · exact ⟨u, rfl, hpaved⟩

/-! ## The hidden file -/

/-- The name of the hidden file beside one. -/
def hiddenName (name : String) : String := "." ++ name ++ ".tmp"

theorem utf8ByteSize_hiddenName (name : String) :
    (hiddenName name).utf8ByteSize = name.utf8ByteSize + 5 := by
  rw [hiddenName, String.utf8ByteSize_append, String.utf8ByteSize_append]
  have hdot : ".".utf8ByteSize = 1 := rfl
  have htmp : ".tmp".utf8ByteSize = 4 := rfl
  omega

theorem component_hiddenName (hslash : '/' ∉ name.toList) : Path.Component (hiddenName name) := by
  have hbytes := utf8ByteSize_hiddenName name
  have hne : ∀ text : String, text.utf8ByteSize < 5 → hiddenName name ≠ text := by
    rintro text htext rfl
    omega
  refine ⟨hne _ (by decide), hne _ (by decide), hne _ (by decide), ?_⟩
  simp [hiddenName, hslash]

/-- The hidden file has the path above and its own name. -/
theorem exists_temporary_of_names (h : names path = above ++ [name]) (hdots : name ≠ "..") :
    ∃ parent rest, temporary path = .ok (Path.join parent (hiddenName name)) ∧
      names parent = above ∧ names rest = [name] ∧
      (path = parent ++ "/" ++ rest ∨ (parent = "" ∨ parent = "/") ∧ path = parent ++ rest) := by
  have hsome : names path ≠ [] := by simp [h]
  obtain ⟨parent, rest, last, hparent, -, hrest, hfile, hsplit⟩ := exists_parent hsome
  have hnames := names_of_parent hrest hsplit
  rw [h] at hnames
  obtain ⟨rfl, hlast⟩ := List.append_inj' hnames rfl
  obtain rfl : name = last := by simpa using hlast
  refine ⟨parent, rest, ?_, rfl, hrest, hsplit⟩
  unfold temporary
  rw [hfile, if_neg hdots, hparent]
  rfl

/-- The path of the hidden file has no zero where the path itself has none. -/
theorem check_hidden {parent rest : String}
    (hpath : path = parent ++ "/" ++ rest ∨ (parent = "" ∨ parent = "/") ∧ path = parent ++ rest)
    (hrest : names rest = [name]) (hcheck : checkPath path = .ok ())
    (hsize : (Path.join parent (hiddenName name)).utf8ByteSize < pathLimit) :
    checkPath (Path.join parent (hiddenName name)) = .ok () := by
  obtain ⟨before, after, hname⟩ := Name.exists_append_of_mem_parts (mem_parts_of_names hrest)
  rw [checkPath_eq_ok] at hcheck ⊢
  obtain ⟨hzero, -, -⟩ := hcheck
  have hparent : '\x00' ∉ parent.toList := by
    rcases hpath with rfl | ⟨-, rfl⟩ <;> simp_all
  have hhidden : '\x00' ∉ (hiddenName name).toList := by
    rw [hiddenName]
    subst hname
    rcases hpath with rfl | ⟨-, rfl⟩ <;> simp_all
  have hhiddenBytes := utf8ByteSize_hiddenName name
  generalize hiddenName name = hidden at hhidden hhiddenBytes hsize ⊢
  refine ⟨?_, ?_, hsize⟩
  · rcases join_cases parent hidden with ⟨h, -⟩ | h <;> simp [h, hparent, hhidden]
  · intro hempty
    have hnone : hidden.utf8ByteSize = 0 := by
      rcases join_cases parent hidden with ⟨h, -⟩ | h <;> simp_all
    omega

/-- The path of the hidden file is at most five bytes longer. -/
theorem utf8ByteSize_temporary_le {hidden : String} (hnames : names path = above ++ [name])
    (hdots : name ≠ "..") (h : temporary path = .ok hidden) :
    hidden.utf8ByteSize ≤ path.utf8ByteSize + 5 := by
  obtain ⟨parent, rest, htemporary, -, hrest, hpath⟩ := exists_temporary_of_names hnames hdots
  rw [h, Except.ok.injEq] at htemporary
  subst htemporary
  obtain ⟨before, after, hname⟩ := Name.exists_append_of_mem_parts (mem_parts_of_names hrest)
  have hslash : "/".utf8ByteSize = 1 := rfl
  have hrestBytes : rest.utf8ByteSize =
      before.utf8ByteSize + name.utf8ByteSize + after.utf8ByteSize := by
    rw [hname, String.utf8ByteSize_append, String.utf8ByteSize_append]
  have hhiddenBytes := utf8ByteSize_hiddenName name
  generalize hiddenName name = hidden at hhiddenBytes ⊢
  rcases hpath with rfl | ⟨rfl | rfl, rfl⟩
  · rw [String.utf8ByteSize_append, String.utf8ByteSize_append]
    rcases join_cases parent hidden with ⟨h, -⟩ | h
    · rw [h, String.utf8ByteSize_append]
      omega
    · rw [h, String.utf8ByteSize_append, String.utf8ByteSize_append]
      omega
  · rw [show Path.join "" hidden = "" ++ hidden from rfl, String.empty_append, String.empty_append]
    omega
  · rw [show Path.join "/" hidden = "/" ++ hidden from rfl, String.utf8ByteSize_append,
      String.utf8ByteSize_append]
    omega

/-- The hidden file is beside the path. -/
theorem exists_temporary (hpath : Leads path above name)
    (hsize : ∀ hidden, temporary path = .ok hidden → hidden.utf8ByteSize < pathLimit)
    (hshort : name.utf8ByteSize + 5 ≤ maxNameBytes) :
    ∃ hidden, temporary path = .ok hidden ∧ Leads hidden above (hiddenName name) := by
  obtain ⟨parent, rest, htemporary, rfl, hrest, hsplit⟩ :=
    exists_temporary_of_names hpath.names_eq hpath.plain.2
  have hhidden := utf8ByteSize_hiddenName name
  have hcomponent := component_hiddenName (Name.not_mem_of_mem_parts (mem_parts_of_names hrest))
  have hcheck := check_hidden hsplit hrest hpath.check (hsize _ htemporary)
  exact ⟨_, htemporary, Leads.join hcomponent (by omega) hcheck⟩

/-! ## The whole write -/

/-- The place of a file and that of the hidden one are beside the way, and neither is a directory. -/
structure Room (t : FileTree) (above : List String) (name : String) : Prop where
  beside : ∀ last ∈ [name, hiddenName name], reach [] above ++ [last] ∉ way [] above
  vacant : ∀ last ∈ [name, hiddenName name],
    t.at? (reach [] above ++ [last]) ≠ some .directory

/-- What a write leaves: the way, the file with its content, and no hidden file. -/
structure Wrote (t : FileTree) (above : List String) (name : String) (content : ByteArray)
    (u : FileTree) : Prop where
  sound : u.Sound
  file : u.at? (reach [] above ++ [name]) = some (.file content)
  hidden : u.at? (reach [] above ++ [hiddenName name]) = none
  others : ∀ q ≠ reach [] above ++ [name], q ≠ reach [] above ++ [hiddenName name] →
    u.at? q = if q ∈ way [] above then some .directory else t.at? q

/-- The way is there when the file has been written. -/
theorem Wrote.made (h : Wrote t above name content u) (hroom : Room t above name) :
    u.Made [] above := by
  intro q hq
  rw [h.others q ?_ ?_, if_pos hq]
  · rintro rfl
    exact hroom.beside name (by simp) hq
  · rintro rfl
    exact hroom.beside (hiddenName name) (by simp) hq

theorem Wrote.stat (h : Wrote t above name content u) (hroom : Room t above name)
    (hfree : t.Free [] above) (hpath : Leads path above name) :
    u.stat path = .ok (.file content) := by
  have hmade := h.made hroom
  rw [hpath.stat_of_made (hmade.free hfree.short) hmade, h.file]

theorem hiddenName_ne (name : String) : hiddenName name ≠ name := by
  intro h
  have hbytes := congrArg String.utf8ByteSize h
  rw [utf8ByteSize_hiddenName] at hbytes
  omega

/-- The two places are still not those of directories when the way is made. -/
theorem Room.of_paved {v : FileTree} (hroom : Room t above name) (hpaved : Paved t [] above v) :
    ∀ last ∈ [name, hiddenName name], v.at? (reach [] above ++ [last]) ≠ some .directory := by
  intro last hlast
  rw [hpaved.at?, if_neg (hroom.beside last hlast)]
  exact hroom.vacant last hlast

/-- Moving the hidden file over the other one. -/
theorem wrote_of_paved {v : FileTree} (hpaved : Paved t [] above v) (hroom : Room t above name)
    (content : ByteArray) :
    Wrote t above name content
      (((v.put (reach [] above ++ [hiddenName name]) (.file content)).drop
        (reach [] above ++ [hiddenName name])).put (reach [] above ++ [name]) (.file content)) := by
  have hvacant := hroom.of_paved hpaved
  have hne := hiddenName_ne name
  have hat := at?_drop_put v (p := reach [] above ++ [hiddenName name]) (by simp) (.file content)
  have hsound : (v.put (reach [] above ++ [hiddenName name]) (.file content)).Sound :=
    hpaved.sound.put hpaved.made.reach (.inr (hvacant (hiddenName name) (by simp)))
  have hhidden : (v.put (reach [] above ++ [hiddenName name]) (.file content)).at?
      (reach [] above ++ [hiddenName name]) = some (.file content) := by
    rw [at?_put _ (by simp), if_pos rfl]
  have hdropped := hsound.drop hhidden
  have habove := hat (reach [] above)
  rw [if_neg (by simp), hpaved.made.reach] at habove
  have hplace := hat (reach [] above ++ [name])
  rw [if_neg (by simpa using hne)] at hplace
  refine ⟨hdropped.put habove (.inr ?_), ?_, ?_, ?_⟩
  · rw [hplace]
    exact hvacant name (by simp)
  · rw [at?_put _ (by simp), if_pos rfl]
  · rw [at?_put _ (by simp), if_neg (by simpa using hne.symm), hat, if_pos rfl]
  · intro q hq hqhidden
    rw [at?_put _ (by simp), if_neg (Ne.symm hq), hat, if_neg (Ne.symm hqhidden), hpaved.at?]

/-- A write at once, from where the directories above the file have been made. -/
theorem writeAtomically_of_parents {v : FileTree} {hidden : String} (hparents : makeParents path t = .ok () v)
    (htemporary : temporary path = .ok hidden) (content : ByteArray) :
    writeAtomically path content t =
      match v.write hidden content with
      | .error f => .error (.failure (.io (.createTemporary hidden f))) v
      | .ok w =>
        match w.rename hidden path with
        | .ok u => .ok () u
        | .error f => .error (.failure (.io (.replace path f)))
            (match w.remove hidden with
              | .ok u => u
              | .error _ => w) := by
  rw [writeAtomically, Run.bind_ok hparents, htemporary]
  refine (Run.bind_ok rfl _).trans ((Run.bind_ok rfl _).trans ?_)
  cases v.write hidden content with
  | error f => exact Run.bind_error rfl _
  | ok w =>
    refine (Run.bind_ok rfl _).trans ((Run.bind_ok rfl _).trans ?_)
    dsimp only
    cases w.rename hidden path with
    | ok u => rfl
    | error f => rfl

/-- A write at once answers, and leaves the file with its content. -/
theorem writeAtomically_of_free (ht : t.Sound) (hpath : Leads path above name)
    (hsize : ∀ hidden, temporary path = .ok hidden → hidden.utf8ByteSize < pathLimit)
    (hshort : name.utf8ByteSize + 5 ≤ maxNameBytes) (hfree : t.Free [] above)
    (hroom : Room t above name) (content : ByteArray) :
    ∃ u, writeAtomically path content t = .ok () u ∧ Wrote t above name content u := by
  obtain ⟨v, hparents, hpaved⟩ := makeParents_of_free ht hpath hfree
  obtain ⟨hidden, htemporary, hhidden⟩ := exists_temporary hpath hsize hshort
  refine ⟨_, ?_, wrote_of_paved hpaved hroom content⟩
  have hvacant := hroom.of_paved hpaved
  have hwrite := hhidden.write_of_made (hpaved.free hfree) hpaved.made (hvacant _ (by simp)) content
  -- The way is as it was when the hidden file has been written.
  have hmade := hpaved.made.put (hroom.beside (hiddenName name) (by simp)) (by simp) (.file content)
  have hclear := hmade.free hfree.short
  have hwritten : (v.put (reach [] above ++ [hiddenName name]) (.file content)).at?
      (reach [] above ++ [hiddenName name]) = some (.file content) := by
    rw [at?_put _ (by simp), if_pos rfl]
  have hrename := hhidden.rename_of_made hpath hclear hmade hwritten (by
    rw [at?_put _ (by simp), if_neg (by simpa using hiddenName_ne name)]
    exact hvacant name (by simp))
  rw [writeAtomically_of_parents hparents htemporary, hwrite]
  dsimp only
  rw [hrename]

/-! ## Writes that answer -/

theorem walk_of_slot {p : Place} {dots : OsFault} (h : t.slot path dots = .ok p) :
    checkPath path = .ok () ∧ t.walk [] (Path.steps path) = .ok p := by
  unfold slot at h
  cases hcheck : checkPath path with
  | error f =>
    rw [hcheck] at h
    cases h
  | ok =>
    rw [hcheck] at h
    simp only [bind, Except.bind] at h
    cases hwalk : t.walk [] (Path.steps path) with
    | error f =>
      rw [hwalk] at h
      cases h
    | ok q =>
      rw [hwalk] at h
      simp only at h
      split at h
      · cases h
      · split at h
        · cases h
        · cases h
          exact ⟨rfl, rfl⟩

/-- Where a path can be followed to a name, what is before the name leads to a directory. -/
theorem walk_concat_eq_ok {p q : Place} {ss : List String} (hdot : name ≠ ".") (hback : name ≠ "..")
    (h : t.walk p (ss ++ [name]) = .ok q) : ∃ r, t.walk p ss = .ok r ∧
      t.at? r = some .directory ∧ name.utf8ByteSize ≤ maxNameBytes ∧ q = r ++ [name] := by
  rw [walk_append] at h
  cases hwalk : t.walk p ss with
  | error f =>
    rw [hwalk] at h
    cases h
  | ok r =>
    rw [hwalk] at h
    simp only [Except.bind] at h
    unfold walk at h
    simp only [hdot, hback, if_false] at h
    split at h
    · cases h
    · cases h
    · next hat =>
      split at h
      · cases h
      · next hsize =>
        cases h
        exact ⟨r, rfl, hat, Nat.not_lt.mp hsize, rfl⟩

/-- No name that is too long can be followed. -/
theorem short_of_walk {p q : Place} {ss : List String} (hname : Path.Component name)
    (h : t.walk p (ss ++ [name]) = .ok q) : name.utf8ByteSize ≤ maxNameBytes := by
  obtain ⟨-, -, -, hsize, -⟩ := walk_concat_eq_ok hname.ne_dot hname.ne_dots h
  exact hsize

theorem exists_slot_of_write (h : t.write path content = .ok u) :
    ∃ p, t.slot path .isDirectory = .ok p := by
  unfold write at h
  cases hslot : t.slot path .isDirectory with
  | error f =>
    rw [hslot] at h
    cases h
  | ok p => exact ⟨p, rfl⟩

theorem exists_slot_of_rename {other : String} (h : t.rename path other = .ok u) :
    ∃ q, t.slot other .deviceBusy = .ok q := by
  unfold rename at h
  cases hold : t.slot path .deviceBusy with
  | error f =>
    rw [hold] at h
    cases h
  | ok p =>
    rw [hold] at h
    cases hnew : t.slot other .deviceBusy with
    | error f =>
      rw [hnew] at h
      cases h
    | ok q => exact ⟨q, rfl⟩

theorem exists_of_change {failure : OsFault → IoFailure} {x : Except OsFault FileTree}
    (h : change failure x t = .ok () u) : ∃ v, x = .ok v := by
  cases x with
  | ok v => exact ⟨v, rfl⟩
  | error f => cases h

/-- A write at once answers only where the path and that of the hidden file can be followed. -/
theorem exists_of_writeAtomically (h : writeAtomically path content t = .ok () u) :
    ∃ (hidden : String) (v : FileTree) (p : Place), temporary path = .ok hidden ∧
      checkPath path = .ok () ∧ checkPath hidden = .ok () ∧
      v.walk [] (Path.steps hidden) = .ok p := by
  unfold writeAtomically at h
  obtain ⟨-, t₁, -, h⟩ := Run.bind_eq_ok.mp h
  obtain ⟨hidden, t₂, htemporary, h⟩ := Run.bind_eq_ok.mp h
  obtain ⟨v, t₃, -, h⟩ := Run.bind_eq_ok.mp h
  obtain ⟨⟨⟩, t₄, hwrite, h⟩ := Run.bind_eq_ok.mp h
  obtain ⟨v', t₅, -, h⟩ := Run.bind_eq_ok.mp h
  have hhidden : temporary path = .ok hidden := by
    cases htext : temporary path with
    | error f =>
      rw [htext] at htemporary
      cases htemporary
    | ok text =>
      rw [htext] at htemporary
      cases htemporary
      rfl
  obtain ⟨w, hwrite⟩ := exists_of_change hwrite
  obtain ⟨p, hslot⟩ := exists_slot_of_write hwrite
  obtain ⟨hcheck, hwalk⟩ := walk_of_slot hslot
  cases hrename : v'.rename hidden path with
  | error f =>
    simp only [hrename] at h
    cases h
  | ok w' =>
    obtain ⟨q, hslot'⟩ := exists_slot_of_rename hrename
    exact ⟨hidden, v, p, hhidden, (walk_of_slot hslot').1, hcheck, hwalk⟩

end FileTree

end LayeredConfig
