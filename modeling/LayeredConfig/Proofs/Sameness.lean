import LayeredConfig.Value
import Mathlib.Data.List.Perm.Basic
/-!
# Sameness of values

Being the same value is transitive (`Value.same_trans`), and it is symmetric where no mapping has two
keys that are the same (`Value.same_symm`): then entries that are found one way are all that there are.
-/

namespace LayeredConfig

namespace Binary64

theorem same_iff {x y : Binary64} : x.same y = true ↔
    x = y ∨ (∃ s e, x = .finite s 0 e) ∧ ∃ s e, y = .finite s 0 e := by
  unfold same
  split
  · simp
  · next hzero =>
    rw [decide_eq_true_iff]
    constructor
    · exact Or.inl
    · rintro (h | ⟨⟨s, e, hx⟩, s', e', hy⟩)
      · exact h
      · exact (hzero s e s' e' hx hy).elim

theorem same_symm {x y : Binary64} (h : x.same y = true) : y.same x = true := by
  rw [same_iff] at h ⊢
  exact h.imp Eq.symm And.symm

theorem same_trans {x y z : Binary64} (h : x.same y = true) (h' : y.same z = true) :
    x.same z = true := by
  rw [same_iff] at h h' ⊢
  rcases h with rfl | ⟨hx, hy⟩
  · exact h'
  · rcases h' with rfl | ⟨-, hz⟩
    · exact Or.inr ⟨hx, hy⟩
    · exact Or.inr ⟨hx, hz⟩

end Binary64

namespace Value

/-! ## Transitivity -/

theorem sameEntries_iff {xs ys : List (Value × Value)} : sameEntries xs ys = true ↔
    ∀ x ∈ xs, ∃ y ∈ ys, same x.1 y.1 = true ∧ same x.2 y.2 = true := by
  induction xs with
  | nil => simp [sameEntries]
  | cons x xs ih =>
    obtain ⟨k, v⟩ := x
    rw [sameEntries, Bool.and_eq_true, ih, List.any_eq_true]
    simp

mutual

theorem same_trans : ∀ {u v w : Value}, same u v = true → same v w = true → same u w = true
  | .null, v, w, h, h' => by cases v <;> cases w <;> simp_all [same]
  | .bool a, v, w, h, h' => by cases v <;> cases w <;> simp_all [same]
  | .integer a, v, w, h, h' => by cases v <;> cases w <;> simp_all [same]
  | .float a, v, w, h, h' => by
    cases v <;> cases w <;> simp_all only [same, Bool.false_eq_true]
    exact Binary64.same_trans h h'
  | .string a, v, w, h, h' => by cases v <;> cases w <;> simp_all [same]
  | .sequence us, v, w, h, h' => by
    cases v <;> cases w <;> simp_all only [same, Bool.false_eq_true]
    exact sameItems_trans h h'
  | .mapping us, v, w, h, h' => by
    cases v <;> cases w <;> try simp [same] at h h'
    simp only [same, Bool.and_eq_true, beq_iff_eq] at h h' ⊢
    exact ⟨h.1.trans h'.1, sameEntries_trans h.2 h'.2⟩
  | .tagged t u, v, w, h, h' => by
    cases v <;> cases w <;> try simp [same] at h h'
    simp only [same, Bool.and_eq_true, beq_iff_eq] at h h' ⊢
    exact ⟨h.1.trans h'.1, same_trans h.2 h'.2⟩

theorem sameItems_trans : ∀ {us vs ws : List Value}, sameItems us vs = true →
    sameItems vs ws = true → sameItems us ws = true
  | [], vs, ws, h, h' => by cases vs <;> cases ws <;> simp_all [sameItems]
  | u :: us, vs, ws, h, h' => by
    cases vs <;> cases ws <;> simp_all only [sameItems, Bool.false_eq_true, Bool.and_eq_true]
    exact ⟨same_trans h.1 h'.1, sameItems_trans h.2 h'.2⟩

theorem sameEntries_trans : ∀ {us vs ws : List (Value × Value)}, sameEntries us vs = true →
    sameEntries vs ws = true → sameEntries us ws = true
  | [], vs, ws, h, h' => by simp [sameEntries]
  | (k, u) :: us, vs, ws, h, h' => by
    rw [sameEntries, Bool.and_eq_true, List.any_eq_true] at h ⊢
    refine ⟨?_, sameEntries_trans h.2 h'⟩
    obtain ⟨⟨y, hy, hkey⟩, -⟩ := h
    rw [Bool.and_eq_true] at hkey
    obtain ⟨z, hz, hkz, hvz⟩ := sameEntries_iff.mp h' y hy
    exact ⟨z, hz, Bool.and_eq_true_iff.mpr ⟨same_trans hkey.1 hkz, same_trans hkey.2 hvz⟩⟩

end

/-! ## Symmetry -/

mutual

/-- Whether no mapping in a value has two keys that are the same. -/
def distinct : Value → Bool
  | .sequence vs => distinctItems vs
  | .mapping es => distinctEntries es
  | .tagged _ v => v.distinct
  | _ => true

/-- Whether all values are `distinct`. -/
def distinctItems : List Value → Bool
  | [] => true
  | v :: rest => v.distinct && distinctItems rest

/-- Whether all keys and values are `distinct`, and no two keys the same. -/
def distinctEntries : List (Value × Value) → Bool
  | [] => true
  | (k, v) :: rest =>
    k.distinct && v.distinct && rest.all (fun e => !same k e.1) && distinctEntries rest

end

/-- Where all of a list find something in a list that is as long, and no two of them the same thing,
all of that list is found. -/
theorem found_of_length {α β : Type} {R : α → β → Prop} {xs : List α} {ys : List β}
    (hlength : ys.length = xs.length) (hapart : xs.Pairwise fun x x' => ∀ y, R x y → ¬ R x' y)
    (hall : ∀ x ∈ xs, ∃ y ∈ ys, R x y) : ∀ y ∈ ys, ∃ x ∈ xs, R x y := by
  induction xs generalizing ys with
  | nil => simp [List.length_eq_zero_iff.mp hlength]
  | cons x xs ih =>
    obtain ⟨hx, hxs⟩ := List.pairwise_cons.mp hapart
    obtain ⟨y, hy, hxy⟩ := hall x (by simp)
    obtain ⟨before, after, rfl⟩ := List.append_of_mem hy
    -- The others find what they find beside this one.
    have hothers : ∀ x' ∈ xs, ∃ y' ∈ before ++ after, R x' y' := by
      intro x' hx'
      obtain ⟨y', hy', hxy'⟩ := hall x' (List.mem_cons_of_mem x hx')
      refine ⟨y', ?_, hxy'⟩
      have hne : y' ≠ y := fun heq => hx x' hx' y hxy (heq ▸ hxy')
      simp only [List.mem_append, List.mem_cons, hne, false_or] at hy' ⊢
      exact hy'
    have hrest := ih (by simp at hlength ⊢; omega) hxs hothers
    intro y' hy'
    by_cases heq : y' = y
    · exact ⟨x, by simp, heq ▸ hxy⟩
    · have hmem : y' ∈ before ++ after := by simpa [heq] using hy'
      obtain ⟨x', hx', hxy'⟩ := hrest y' hmem
      exact ⟨x', List.mem_cons_of_mem x hx', hxy'⟩

/-- Symmetry for mappings, given that for their keys and values. -/
theorem sameEntries_symm_of {xs ys : List (Value × Value)} (hlength : ys.length = xs.length)
    (hkeys : xs.Pairwise fun x x' => same x.1 x'.1 = false)
    (hsymm : ∀ x ∈ xs, (∀ w, same x.1 w = true → same w x.1 = true) ∧
      ∀ w, same x.2 w = true → same w x.2 = true)
    (h : sameEntries xs ys = true) : sameEntries ys xs = true := by
  rw [sameEntries_iff] at h ⊢
  have hapart : xs.Pairwise fun x x' => ∀ y : Value × Value,
      same x.1 y.1 = true ∧ same x.2 y.2 = true → ¬ (same x'.1 y.1 = true ∧ same x'.2 y.2 = true) := by
    refine hkeys.imp_of_mem fun {x x'} _ hx' hne y hy hy' => ?_
    rw [same_trans hy.1 ((hsymm x' hx').1 y.1 hy'.1)] at hne
    cases hne
  intro y hy
  obtain ⟨x, hx, hxy⟩ := found_of_length hlength hapart h y hy
  exact ⟨x, hx, (hsymm x hx).1 y.1 hxy.1, (hsymm x hx).2 y.2 hxy.2⟩

theorem pairwise_of_distinctEntries {xs : List (Value × Value)} (h : distinctEntries xs = true) :
    xs.Pairwise fun x x' => same x.1 x'.1 = false := by
  induction xs with
  | nil => exact .nil
  | cons x xs ih =>
    obtain ⟨k, v⟩ := x
    simp only [distinctEntries, Bool.and_eq_true, List.all_eq_true] at h
    exact List.pairwise_cons.mpr ⟨fun e he => by simpa using h.1.2 e he, ih h.2⟩

mutual

theorem same_symm : ∀ {v w : Value}, v.distinct = true → same v w = true → same w v = true
  | .null, w, _, h => by cases w <;> simp_all [same]
  | .bool a, w, _, h => by cases w <;> simp_all [same]
  | .integer a, w, _, h => by cases w <;> simp_all [same]
  | .float a, w, _, h => by
    cases w <;> simp_all only [same, Bool.false_eq_true]
    exact Binary64.same_symm h
  | .string a, w, _, h => by cases w <;> simp_all [same]
  | .sequence vs, w, hv, h => by
    cases w <;> simp_all only [same, Bool.false_eq_true]
    exact sameItems_symm hv h
  | .mapping vs, w, hv, h => by
    cases w <;> simp_all only [same, Bool.false_eq_true, Bool.and_eq_true, beq_iff_eq]
    refine ⟨trivial, sameEntries_symm_of h.1.symm (pairwise_of_distinctEntries hv) ?_ h.2⟩
    exact symm_of_mem hv
  | .tagged t v, w, hv, h => by
    cases w <;> simp_all only [same, Bool.false_eq_true, Bool.and_eq_true, beq_iff_eq]
    exact ⟨trivial, same_symm hv h.2⟩

theorem sameItems_symm : ∀ {vs ws : List Value}, distinctItems vs = true →
    sameItems vs ws = true → sameItems ws vs = true
  | [], ws, _, h => by cases ws <;> simp_all [sameItems]
  | v :: vs, ws, hv, h => by
    cases ws <;> simp_all only [sameItems, Bool.false_eq_true, Bool.and_eq_true]
    rw [distinctItems, Bool.and_eq_true] at hv
    exact ⟨same_symm hv.1 h.1, sameItems_symm hv.2 h.2⟩

theorem symm_of_mem : ∀ {xs : List (Value × Value)}, distinctEntries xs = true → ∀ x ∈ xs,
    (∀ w, same x.1 w = true → same w x.1 = true) ∧ ∀ w, same x.2 w = true → same w x.2 = true
  | [], _, _, hx => by simp at hx
  | (k, v) :: xs, hxs, x, hx => by
    simp only [distinctEntries, Bool.and_eq_true] at hxs
    rcases List.mem_cons.mp hx with rfl | hx
    · exact ⟨fun w => same_symm hxs.1.1.1, fun w => same_symm hxs.1.1.2⟩
    · exact symm_of_mem hxs.2 x hx

end

end Value

namespace Document

/-- Whether no mapping in a document has two keys that are the same. -/
def distinct (d : Document) : Bool := d.entries.all (·.2.distinct)

theorem sameFields_symm {xs ys : List (String × Value)} (hxs : xs.all (·.2.distinct) = true)
    (h : sameFields xs ys = true) : sameFields ys xs = true := by
  induction xs generalizing ys with
  | nil => cases ys <;> simp_all [sameFields]
  | cons x xs ih =>
    cases ys with
    | nil => simp [sameFields] at h
    | cons y ys =>
      simp only [sameFields, List.all_cons, Bool.and_eq_true, beq_iff_eq] at hxs h ⊢
      exact ⟨⟨h.1.1.symm, Value.same_symm hxs.1 h.1.2⟩, ih hxs.2 h.2⟩

theorem same_symm {d e : Document} (hd : d.distinct = true) (h : d.same e = true) :
    e.same d = true := sameFields_symm hd h

/-- What is the same as an empty document is empty. -/
theorem isEmpty_of_same {d e : Document} (h : d.same e = true) : d.isEmpty = e.isEmpty := by
  obtain ⟨xs, hxs⟩ := d
  obtain ⟨ys, hys⟩ := e
  cases xs <;> cases ys <;> simp_all [same, sameFields, Dict.isEmpty]

end Document

end LayeredConfig
