import LayeredConfig.Proofs.KeyPath
import LayeredConfig.Proofs.Dict
import Mathlib.Data.Option.Basic
/-!
# What a value is apart from its text keys

The face of a value is what is left of it without its entries under text keys. Values that have the same
faces along all paths of text keys are the same (`Value.same_of_like`), whatever the order of entries.
So to compare two documents it is enough to look up every path in both.
-/

namespace LayeredConfig

namespace Value

variable {u v w : Value} {key : String} {es fs : List (Value × Value)} {p q : List String}

/-! ## Faces -/

/-- The entries of a mapping that are not under text keys. -/
def others (es : List (Value × Value)) : List (Value × Value) := es.filter fun e => (textKey? e).isNone

/-- Two values are the same but for what is under text keys, and for the order of entries. -/
inductive Facing : Value → Value → Prop
  | refl (v : Value) : Facing v v
  | mapping {es fs : List (Value × Value)} : (others es).Perm (others fs) →
      Facing (.mapping es) (.mapping fs)
  | tagged {t : String} {v w : Value} : Facing v w → Facing (.tagged t v) (.tagged t w)

theorem Facing.symm (h : Facing v w) : Facing w v := by
  induction h with
  | refl v => exact .refl v
  | mapping h => exact .mapping h.symm
  | tagged _ ih => exact .tagged ih

theorem Facing.trans (h : Facing u v) (h' : Facing v w) : Facing u w := by
  induction h generalizing w with
  | refl => exact h'
  | mapping h =>
    cases h' with
    | refl => exact .mapping h
    | mapping h' => exact .mapping (h.trans h')
  | tagged h ih =>
    cases h' with
    | refl => exact .tagged h
    | tagged h' => exact .tagged (ih h')

/-- A value with the entries of its mapping changed, if only under text keys. -/
theorem facing_mapEntries {f : List (Value × Value) → List (Value × Value)}
    (hf : ∀ es, v.entries? = some es → (others es).Perm (others (f es))) :
    Facing v (v.mapEntries f) := by
  induction v using mapEntries.induct with
  | case1 es => exact .mapping (hf es rfl)
  | case2 t v ih => exact .tagged (ih hf)
  | case3 v hmapping htagged =>
    cases v with
    | mapping es => exact (hmapping es rfl).elim
    | tagged t v => exact (htagged t v rfl).elim
    | _ => exact .refl _

theorem others_cons (e : Value × Value) :
    others (e :: es) = if (textKey? e).isNone then e :: others es else others es := by
  rw [others, List.filter_cons]
  rfl

theorem others_put (value : Value) : others (put key value es) = others es := by
  induction es with
  | nil => rfl
  | cons e rest ih =>
    rw [put]
    split
    · next he =>
      have hkey : textKey? e = some key := textKey?_eq_some.mpr (isKey_iff.mp he)
      have hkey' : textKey? (e.1, value) = some key := hkey
      simp [others_cons, hkey, hkey']
    · rw [others_cons, others_cons, ih]

theorem others_adjust (f : Value → Value) : others (adjust key f es) = others es := by
  induction es with
  | nil => rfl
  | cons e rest ih =>
    rw [adjust]
    split
    · next he =>
      have hkey : textKey? e = some key := textKey?_eq_some.mpr (isKey_iff.mp he)
      have hkey' : textKey? (e.1, f e.2) = some key := hkey
      simp [others_cons, hkey, hkey']
    · rw [others_cons, others_cons, ih]

theorem perm_others_takeOut : (others es).Perm (others (takeOut key es)) := by
  cases h : find? key es with
  | none => rw [takeOut_of_find? h]
  | some v =>
    have hperm := (perm_takeOut h).filter fun e => (textKey? e).isNone
    rw [List.filter_cons_of_neg (by simp [textKey?])] at hperm
    exact hperm.symm

/-! ## Faces along paths -/

/-- Two values have the same faces along all paths. -/
def Like (v w : Value) : Prop := ∀ q, Option.Rel Facing (at? q v) (at? q w)

theorem Like.facing (h : Like v w) : Facing v w := by
  have hface := h []
  rw [at?, at?] at hface
  cases hface with
  | some hface => exact hface

theorem rel_like_of_bind {x y : Option Value}
    (h : ∀ q, Option.Rel Facing (x.bind (at? q)) (y.bind (at? q))) : Option.Rel Like x y := by
  have hhere := h []
  cases x with
  | none =>
    cases y with
    | none => exact .none
    | some y => cases hhere
  | some x =>
    cases y with
    | none => cases hhere
    | some y => exact .some h

/-- Values that have the same faces along all paths have them under each key. -/
theorem Like.find? (h : Like v w) (key : String) :
    Option.Rel Like (v.entries?.bind (Value.find? key)) (w.entries?.bind (Value.find? key)) :=
  rel_like_of_bind fun q => h (key :: q)

theorem length_eq_add : es.length = (textKeys es).length + (others es).length := by
  induction es with
  | nil => rfl
  | cons e rest ih =>
    rw [textKeys_cons, others_cons, List.length_cons, ih]
    cases textKey? e <;> simp <;> omega

/-- Mappings with the same faces along all paths have as many entries. -/
theorem length_eq_of_like (hes : Keyed es) (hfs : Keyed fs) (h : Like (.mapping es) (.mapping fs)) :
    es.length = fs.length := by
  have hothers : (others es).Perm (others fs) := by
    cases h.facing with
    | refl => exact .refl _
    | mapping h => exact h
  have hkeys : (textKeys es).Perm (textKeys fs) := by
    rw [List.perm_ext_iff_of_nodup hes.nodup hfs.nodup]
    intro key
    have hkey : Option.Rel Like (find? key es) (find? key fs) := h.find? key
    rw [← not_iff_not, ← find?_eq_none, ← find?_eq_none]
    exact eq_none_iff_of_rel hkey
  calc es.length = (textKeys es).length + (others es).length := length_eq_add
    _ = (textKeys fs).length + (others fs).length := by rw [hkeys.length_eq, hothers.length_eq]
    _ = fs.length := length_eq_add.symm

mutual

/-- Values with the same faces along all paths are the same. -/
theorem same_of_like : ∀ {v w : Value}, v.keyed = true → w.keyed = true → Like v w → same v w = true
  | .mapping es, w, hv, hw, h => by
    have hface := h.facing
    cases hface with
    | refl => exact same_refl _
    | @mapping _ fs hothers =>
      have hes := keyed_mapping.mp hv
      have hfs := keyed_mapping.mp hw
      rw [same, length_eq_of_like hes hfs h, beq_self_eq_true, Bool.true_and]
      exact sameEntries_of_like hes hfs hothers (fun key => h.find? key) fun e he => he
  | .tagged t v, w, hv, hw, h => by
    have hface := h.facing
    cases hface with
    | refl => exact same_refl _
    | @tagged _ _ w hface =>
      have hlike : Like v w := by
        intro q
        cases q with
        | nil => exact .some hface
        | cons k q => exact h (k :: q)
      simp [same, same_of_like (v := v) (by simpa [keyed] using hv) (by simpa [keyed] using hw) hlike]
  | .null, w, _, _, h | .bool _, w, _, _, h | .integer _, w, _, _, h | .float _, w, _, _, h
  | .string _, w, _, _, h | .sequence _, w, _, _, h => by
    have hface := h.facing
    cases hface
    exact same_refl _

/-- Entries of a mapping have their like in another one. -/
theorem sameEntries_of_like : ∀ {xs es fs : List (Value × Value)}, Keyed es → Keyed fs →
    (others es).Perm (others fs) → (∀ key, Option.Rel Like (find? key es) (find? key fs)) →
    (∀ e ∈ xs, e ∈ es) → sameEntries xs fs = true
  | [], _, _, _, _, _, _, _ => rfl
  | (k, v) :: rest, es, fs, hes, hfs, hothers, hlike, hxs => by
    have hmem : (k, v) ∈ es := hxs (k, v) (by simp)
    rw [sameEntries, Bool.and_eq_true]
    refine ⟨?_, sameEntries_of_like hes hfs hothers hlike fun e he => hxs e (by simp [he])⟩
    rw [List.any_eq_true]
    cases hk : textKey? (k, v) with
    | none =>
      have hother : (k, v) ∈ others es := List.mem_filter.mpr ⟨hmem, by simp [hk]⟩
      have hother' := List.mem_filter.mp (hothers.mem_iff.mp hother)
      exact ⟨(k, v), hother'.1, by simp [same_refl]⟩
    | some key =>
      have hk : k = .string key := textKey?_eq_some.mp hk
      subst hk
      have hkey := hlike key
      rw [(find?_eq_some hes.nodup).mpr hmem] at hkey
      generalize hf : find? key fs = o at hkey
      cases hkey with
      | @some _ w hvw =>
        have hmem' := mem_of_find? hf
        refine ⟨(.string key, w), hmem', ?_⟩
        have hsame := same_of_like (v := v) (hes.values _ hmem) (hfs.values _ hmem') hvw
        simp [same_refl, hsame]

end

end Value

/-! ## Documents -/

namespace Document

variable {d e f : Document} {p q : KeyPath}

/-- Two documents have the same faces along all paths. -/
def Like (d e : Document) : Prop := ∀ q : KeyPath, Option.Rel Value.Facing (d.at? q) (e.at? q)

theorem Like.refl (d : Document) : Like d d := by
  intro q
  cases d.at? q with
  | none => exact .none
  | some v => exact .some (.refl v)

theorem Like.get? (h : Like d e) (name : String) :
    Option.Rel Value.Like (d.get? name) (e.get? name) := by
  have hbelow : ∀ q, Option.Rel Value.Facing ((d.get? name).bind (Value.at? q))
      ((e.get? name).bind (Value.at? q)) := fun q => h ⟨name, q⟩
  exact Value.rel_like_of_bind hbelow

/-- Fields that are the same, name by name, are the same in their order. -/
theorem sameFields_of_keys {xs ys : List (String × Value)} (hkeys : xs.map (·.1) = ys.map (·.1))
    (h : ∀ x ∈ xs, ∀ y ∈ ys, x.1 = y.1 → x.2.same y.2 = true) : sameFields xs ys = true := by
  induction xs generalizing ys with
  | nil => cases ys <;> simp_all [sameFields]
  | cons x xs ih =>
    cases ys with
    | nil => simp at hkeys
    | cons y ys =>
      simp only [List.map_cons, List.cons.injEq] at hkeys
      have hrest := ih hkeys.2 fun x' hx y' hy => h x' (by simp [hx]) y' (by simp [hy])
      simp [sameFields, hkeys.1, hrest, h x (by simp) y (by simp) hkeys.1]

/-- Documents with the same faces along all paths are the same. -/
theorem same_of_like (hd : d.keyed = true) (he : e.keyed = true) (h : Like d e) :
    d.same e = true := by
  apply sameFields_of_keys (Dict.keys_eq_of_rel h.get?)
  rintro ⟨name, v⟩ hx ⟨other, w⟩ hy heq
  have heq : name = other := heq
  subst heq
  have hv : d.get? name = some v := Dict.lookup_of_mem d.ascending hx
  have hw : e.get? name = some w := Dict.lookup_of_mem e.ascending hy
  have hvw := h.get? name
  rw [hv, hw] at hvw
  cases hvw with
  | some hvw => exact Value.same_of_like (keyed_iff.mp hd _ _ hv) (keyed_iff.mp he _ _ hw) hvw

end Document

end LayeredConfig
