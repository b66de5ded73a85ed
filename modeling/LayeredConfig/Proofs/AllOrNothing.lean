import LayeredConfig.Proofs.Atomic
/-!
# All or nothing

A file that is written at once is written as a whole or not at all, whatever stands in the way. There are
three ways for it to end (`ends_writeAtomically`): it stops before anything is written, or the hidden file
cannot be moved and is taken away again, or it is moved. In all of them, directories above the file were
made before. Along a path without two dots these are other places than those of the two files, and so
nothing but these is touched (`writeAtomically_whole`).
-/

namespace LayeredConfig.FileTree

open LayeredConfig.Path

variable {t u v : FileTree} {path other name last : String} {p q : Place} {above names xs ys : List String}
  {content : ByteArray} {dots : OsFault}

/-! ## Slots -/

/-- A tree in which some places on a way that were missing have become directories, and nothing else has
changed. -/
def Grown (t : FileTree) (names : List String) (u : FileTree) : Prop :=
  ∀ q, u.at? q = t.at? q ∨ q ∈ way [] names ∧ t.at? q = none ∧ u.at? q = some .directory

theorem Grown.refl (t : FileTree) (names : List String) : Grown t names t := fun _ => .inl rfl

theorem Grown.trans (hv : Grown t xs v) (hu : Grown v (xs ++ ys) u) : Grown t (xs ++ ys) u := by
  intro q
  rcases hv q with hq | ⟨hmem, hnone, hdirectory⟩
  · rw [← hq]
    exact hu q
  · rcases hu q with hq | ⟨-, hv, -⟩
    · exact .inr ⟨mem_way_append.mpr (.inl hmem), hnone, hq.trans hdirectory⟩
    · rw [hdirectory] at hv
      cases hv

/-- The ways for a write at once to end, once directories above the file have been made. -/
inductive Ends (t : FileTree) (path : String) (above : List String) (name : String)
    (content : ByteArray) : EStateM.Result Halt FileTree Unit → Prop
  /-- It stops before anything is written. -/
  | stopped {v : FileTree} {stop : Halt} : Grown t above v → Ends t path above name content (.error stop v)
  /-- The hidden file cannot be moved and is taken away. -/
  | withdrawn {v : FileTree} {stop : Halt} : Grown t above v →
      v.at? (reach [] above ++ [hiddenName name]) ≠ some .directory →
      Ends t path above name content (.error stop
        ((v.put (reach [] above ++ [hiddenName name]) (.file content)).drop
          (reach [] above ++ [hiddenName name])))
  /-- The hidden file is moved over the other one. -/
  | moved {v : FileTree} : Grown t above v →
      v.at? (reach [] above ++ [hiddenName name]) ≠ some .directory →
      v.at? (reach [] above ++ [name]) ≠ some .directory →
      v.Made [] above → (∀ n ∈ above, n.utf8ByteSize ≤ maxNameBytes) → Leads path above name →
      Ends t path above name content (.ok ()
        (((v.put (reach [] above ++ [hiddenName name]) (.file content)).drop
          (reach [] above ++ [hiddenName name])).put (reach [] above ++ [name]) (.file content)))

theorem prefix_of_mem_way (h : ".." ∉ names) (hq : q ∈ way [] names) : q <+: names := by
  obtain ⟨front, hfront, rfl⟩ := (mem_way_of_plain h).mp hq
  exact hfront

/-- What is beside the end of a plain way is not on it. -/
theorem beside_of_plain (h : ".." ∉ above) (name : String) : above ++ [name] ∉ way [] above := by
  intro hmem
  have hle := (prefix_of_mem_way h hmem).length_le
  rw [List.length_append, List.length_singleton] at hle
  omega

/-! ## What is touched -/

/-- No directory is taken away, and only missing ones above a place are made. -/
structure Deepened (t : FileTree) (above : Place) (u : FileTree) : Prop where
  kept : ∀ q, t.at? q = some .directory → u.at? q = some .directory
  made : ∀ q, u.at? q = some .directory →
    t.at? q = some .directory ∨ t.at? q = none ∧ q <+: above

/-- A file was written: the path leads to it, the hidden file is gone, and all other files are as they
were. -/
structure Written (t : FileTree) (path : String) (above : Place) (name : String) (content : ByteArray)
    (u : FileTree) : Prop extends Deepened t above u where
  read : u.read path = .ok content
  file : u.at? (above ++ [name]) = some (.file content)
  hidden : u.at? (above ++ [hiddenName name]) = none
  others : ∀ q, q ≠ above ++ [name] → q ≠ above ++ [hiddenName name] →
    ∀ c, u.at? q = some (.file c) ↔ t.at? q = some (.file c)

/-- A file was not written: what is in its place is what was there, all files but the hidden one are as
they were, and there is none that was not there. -/
structure Spared (t : FileTree) (above : Place) (name : String) (u : FileTree) : Prop extends
    Deepened t above u where
  place : u.at? (above ++ [name]) = t.at? (above ++ [name])
  others : ∀ q, q ≠ above ++ [hiddenName name] →
    ∀ c, u.at? q = some (.file c) ↔ t.at? q = some (.file c)
  old : ∀ q c, u.at? q = some (.file c) → t.at? q = some (.file c)

theorem Grown.at?_of_not_mem (h : Grown t names u) (hq : q ∉ way [] names) : u.at? q = t.at? q := by
  rcases h q with h | ⟨hmem, -, -⟩
  · exact h
  · exact (hq hmem).elim

theorem Grown.file_iff (h : Grown t names u) (q : Place) (c : ByteArray) :
    u.at? q = some (.file c) ↔ t.at? q = some (.file c) := by
  rcases h q with h | ⟨-, hnone, hdirectory⟩
  · rw [h]
  · rw [hnone, hdirectory]
    constructor <;> nofun

/-- Files may come and go where there are no directories. -/
theorem Grown.deepened (h : Grown t above v) (hplain : ".." ∉ above)
    (hu : ∀ q, u.at? q = some .directory ↔ v.at? q = some .directory) : Deepened t above u where
  kept q hq := by
    rw [hu]
    rcases h q with h | ⟨-, -, h⟩
    · rw [h, hq]
    · exact h
  made q hq := by
    rw [hu] at hq
    rcases h q with h | ⟨hmem, hnone, -⟩
    · exact .inl (h.symm.trans hq)
    · exact .inr ⟨hnone, prefix_of_mem_way hplain hmem⟩

theorem Grown.spared (h : Grown t above v) (hplain : ".." ∉ above) : Spared t above name v where
  toDeepened := h.deepened hplain fun _ => Iff.rfl
  place := h.at?_of_not_mem (beside_of_plain hplain name)
  others q _ c := h.file_iff q c
  old q c := (h.file_iff q c).mp

/-- The hidden file was written, and moved over the other one. -/
theorem Grown.written (h : Grown t above v) (hplain : ".." ∉ above)
    (hvacant : v.at? (above ++ [hiddenName name]) ≠ some .directory)
    (hplace : v.at? (above ++ [name]) ≠ some .directory) (hmade : v.Made [] above)
    (hshort : ∀ n ∈ above, n.utf8ByteSize ≤ maxNameBytes) (hpath : Leads path above name) :
    Written t path above name content
      (((v.put (above ++ [hiddenName name]) (.file content)).drop (above ++ [hiddenName name])).put
        (above ++ [name]) (.file content)) := by
  generalize hu : ((v.put (above ++ [hiddenName name]) (.file content)).drop
    (above ++ [hiddenName name])).put (above ++ [name]) (.file content) = u
  have hat : ∀ q, u.at? q = if above ++ [name] = q then some (.file content)
      else if above ++ [hiddenName name] = q then none else v.at? q := by
    intro q
    rw [← hu, at?_put _ (by simp), at?_drop_put _ (by simp)]
  have hfile : u.at? (above ++ [name]) = some (.file content) := by rw [hat, if_pos rfl]
  have hway : u.Made [] above := by
    intro q hq
    rw [hat, if_neg (by rintro rfl; exact beside_of_plain hplain _ hq),
      if_neg (by rintro rfl; exact beside_of_plain hplain _ hq)]
    exact hmade q hq
  have hstat := hpath.stat_of_made (hway.free hshort) hway
  rw [reach_of_plain hplain, List.nil_append, hfile] at hstat
  refine ⟨h.deepened hplain fun q => ?_, ?_, hfile, ?_, fun q hq hqh c => ?_⟩
  · rw [hat]
    split
    · next hq => simpa [← hq] using hplace
    · split
      · next hq => simpa [← hq] using hvacant
      · rfl
  · rw [FileTree.read, hstat]
    rfl
  · rw [hat, if_neg (by simpa using (hiddenName_ne name).symm), if_pos rfl]
  · rw [hat, if_neg (Ne.symm hq), if_neg (Ne.symm hqh), h.file_iff]

end LayeredConfig.FileTree
