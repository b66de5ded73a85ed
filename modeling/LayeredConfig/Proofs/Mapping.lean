import LayeredConfig.Value
import Mathlib.Data.List.Nodup
import Mathlib.Data.List.Perm.Basic
/-!
# Entries under text keys

What `put`, `adjust` and `takeOut` do to the value under each text key of a mapping. Taking a key out
moves the last entry, so there it counts that no text key occurs twice (`Keyed`). Values whose
mappings are like that are `keyed`; all values that are read from a text are.
-/

namespace LayeredConfig.Value

/-- The text that a key is. -/
def textKey? (e : Value × Value) : Option String :=
  match e.1 with
  | .string s => some s
  | _ => none

/-- The text keys of a mapping. -/
def textKeys (es : List (Value × Value)) : List String := es.filterMap textKey?

mutual

/-- Whether no mapping that text keys lead to has the same text key twice. -/
def keyed : Value → Bool
  | .mapping es => decide (textKeys es).Nodup && keyedEntries es
  | .tagged _ v => v.keyed
  | _ => true

/-- Whether all values of a mapping are `keyed`. -/
def keyedEntries : List (Value × Value) → Bool
  | [] => true
  | (_, v) :: rest => v.keyed && keyedEntries rest

end

/-- No text key occurs twice, neither here nor in the values. -/
structure Keyed (es : List (Value × Value)) : Prop where
  nodup : (textKeys es).Nodup
  values : ∀ e ∈ es, e.2.keyed

variable {key other : String} {v w : Value} {es : List (Value × Value)}

/-! ## Look-up -/

theorem isKey_iff : v.isKey key = true ↔ v = .string key := by
  cases v <;> simp [isKey]

theorem textKey?_eq_some {e : Value × Value} : textKey? e = some key ↔ e.1 = .string key := by
  rw [textKey?]
  split <;> simp_all

theorem textKeys_cons (e : Value × Value) :
    textKeys (e :: es) = (textKey? e).toList ++ textKeys es := by
  rw [textKeys, List.filterMap_cons]
  cases textKey? e <;> rfl

theorem mem_of_find? (h : find? key es = some v) : (.string key, v) ∈ es := by
  induction es with
  | nil => simp [find?] at h
  | cons e rest ih =>
    rw [find?] at h
    split at h
    · rename_i he
      simp only [Option.some.injEq] at h
      simp [← h, ← isKey_iff.mp he]
    · exact List.mem_cons_of_mem _ (ih h)

theorem mem_textKeys (h : (.string key, v) ∈ es) : key ∈ textKeys es :=
  List.mem_filterMap.mpr ⟨_, h, textKey?_eq_some.mpr rfl⟩

theorem find?_eq_none : find? key es = none ↔ key ∉ textKeys es := by
  induction es with
  | nil => simp [find?, textKeys]
  | cons e rest ih =>
    rw [find?]
    split
    · rename_i he
      simp [textKeys_cons, textKey?_eq_some.mpr (isKey_iff.mp he)]
    · rename_i he
      have hne : ¬ textKey? e = some key := fun h => he (isKey_iff.mpr (textKey?_eq_some.mp h))
      rw [ih, textKeys_cons]
      cases hk : textKey? e with
      | none => simp
      | some k =>
        have : key ≠ k := fun h => hne (h ▸ hk)
        simp [this]

/-- Where keys occur once, look-up finds every entry. -/
theorem find?_eq_some (h : (textKeys es).Nodup) : find? key es = some v ↔ (.string key, v) ∈ es := by
  refine ⟨mem_of_find?, fun hm => ?_⟩
  induction es with
  | nil => simp at hm
  | cons e rest ih =>
    rw [find?]
    rcases List.mem_cons.mp hm with rfl | hm
    · simp [isKey]
    · have hin := mem_textKeys hm
      have hne : ¬ e.1.isKey key = true := by
        intro he
        rw [textKeys_cons, textKey?_eq_some.mpr (isKey_iff.mp he)] at h
        exact (List.nodup_cons.mp h).1 hin
      rw [if_neg hne]
      exact ih (h.sublist ((List.sublist_cons_self e rest).filterMap textKey?)) hm

/-! ## Putting a value -/

theorem find?_put (value : Value) :
    find? other (put key value es) = if key = other then some value else find? other es := by
  induction es with
  | nil => by_cases h : key = other <;> simp [put, find?, isKey, h]
  | cons e rest ih =>
    rw [put]
    split
    · rename_i he
      have he := isKey_iff.mp he
      by_cases h : key = other <;> simp [find?, isKey, he, h]
    · rename_i he
      by_cases h : key = other
      · subst h
        simp [find?, he, ih]
      · by_cases ho : e.1.isKey other = true <;> simp [find?, ho, h, ih]

/-- Putting what is there changes nothing, not even the order. -/
theorem put_of_find? (h : find? key es = some v) : put key v es = es := by
  induction es with
  | nil => simp [find?] at h
  | cons e rest ih =>
    rw [find?] at h
    rw [put]
    split at h <;> rename_i he
    · simp only [Option.some.injEq] at h
      simp [he, ← h]
    · simp [he, ih h]

theorem nodup_put (value : Value) (h : (textKeys es).Nodup) : (textKeys (put key value es)).Nodup := by
  induction es with
  | nil => simp [put, textKeys, textKey?]
  | cons e rest ih =>
    rw [put]
    split <;> rename_i he
    · rw [textKeys_cons] at h ⊢
      exact h
    · rw [textKeys_cons] at h ⊢
      cases hk : textKey? e with
      | none =>
        rw [hk] at h
        exact ih h
      | some k =>
        rw [hk] at h
        have ⟨hnot, hrest⟩ := List.nodup_cons.mp h
        have hne : key ≠ k := fun heq => he (isKey_iff.mpr (textKey?_eq_some.mp (heq ▸ hk)))
        have hnot : find? k rest = none := find?_eq_none.mpr hnot
        refine List.nodup_cons.mpr ⟨find?_eq_none.mp ?_, ih hrest⟩
        rw [find?_put, if_neg hne, hnot]

theorem mem_put {e : Value × Value} {value : Value} (h : e ∈ put key value es) :
    e.2 = value ∨ e ∈ es := by
  induction es with
  | nil => simp_all [put]
  | cons x rest ih =>
    rw [put] at h
    split at h
    · rcases List.mem_cons.mp h with rfl | h <;> simp [*]
    · rcases List.mem_cons.mp h with rfl | h
      · simp
      · rcases ih h with h | h <;> simp [h]

theorem Keyed.put (h : Keyed es) (hv : v.keyed) : Keyed (put key v es) where
  nodup := nodup_put v h.nodup
  values e he := by
    rcases mem_put he with heq | he
    · rwa [heq]
    · exact h.values e he

/-! ## Changing a value -/

theorem find?_adjust (f : Value → Value) :
    find? other (adjust key f es) =
      if key = other then (find? other es).map f else find? other es := by
  induction es with
  | nil => simp [adjust, find?]
  | cons e rest ih =>
    rw [adjust]
    split <;> rename_i he
    · have he := isKey_iff.mp he
      by_cases h : key = other <;> simp [find?, isKey, he, h]
    · by_cases ho : e.1.isKey other = true
      · have : key ≠ other := fun h => he (h ▸ ho)
        simp [find?, ho, this]
      · simp [find?, ho, ih]

theorem adjust_eq_self {f : Value → Value} (h : ∀ v, find? key es = some v → f v = v) :
    adjust key f es = es := by
  induction es with
  | nil => rfl
  | cons e rest ih =>
    rw [adjust]
    split <;> rename_i he
    · rw [h e.2 (by simp [find?, he])]
    · rw [ih fun v hv => h v (by simp [find?, he, hv])]

theorem textKeys_adjust (f : Value → Value) : textKeys (adjust key f es) = textKeys es := by
  induction es with
  | nil => rfl
  | cons e rest ih =>
    rw [adjust]
    split
    · simp only [textKeys_cons]
      rfl
    · simp only [textKeys_cons, ih]

theorem mem_adjust {f : Value → Value} {e : Value × Value} (h : e ∈ adjust key f es) :
    (∃ v, find? key es = some v ∧ e.2 = f v) ∨ e ∈ es := by
  induction es with
  | nil => simp [adjust] at h
  | cons x rest ih =>
    rw [adjust] at h
    split at h <;> rename_i hx
    · rcases List.mem_cons.mp h with rfl | h
      · exact .inl ⟨x.2, by simp [find?, hx], rfl⟩
      · simp [h]
    · rcases List.mem_cons.mp h with rfl | h
      · simp
      · rcases ih h with ⟨v, hv, he⟩ | h
        · exact .inl ⟨v, by simp [find?, hx, hv], he⟩
        · simp [h]

theorem Keyed.adjust {f : Value → Value} (h : Keyed es) (hf : ∀ v, v.keyed → (f v).keyed) :
    Keyed (adjust key f es) where
  nodup := by rw [textKeys_adjust]; exact h.nodup
  values e he := by
    rcases mem_adjust he with ⟨v, hv, heq⟩ | he
    · rw [heq]
      exact hf v (h.values _ (mem_of_find? hv))
    · exact h.values e he

/-! ## Taking a key out -/

/-- What is left is all but the entry, in some order. -/
theorem perm_takeOut (h : find? key es = some v) :
    ((.string key, v) :: takeOut key es).Perm es := by
  induction es with
  | nil => simp [find?] at h
  | cons e rest ih =>
    rw [find?] at h
    rw [takeOut]
    split at h <;> rename_i he
    · simp only [Option.some.injEq] at h
      have heq : (.string key, v) = e := Prod.ext (isKey_iff.mp he).symm h.symm
      rw [if_pos he, heq]
      split
      · rename_i hl
        simp [List.getLast?_eq_none_iff.mp hl]
      · rename_i last hl
        refine .cons e ?_
        have hrest := List.dropLast_append_getLast? last hl
        calc (last :: rest.dropLast).Perm (rest.dropLast ++ [last]) :=
              (List.perm_append_singleton last _).symm
          _ = rest := hrest
    · rw [if_neg he]
      exact (List.Perm.swap ..).trans (.cons e (ih h))

theorem takeOut_of_find? (h : find? key es = none) : takeOut key es = es := by
  induction es with
  | nil => rfl
  | cons e rest ih =>
    rw [find?] at h
    rw [takeOut]
    split at h <;> rename_i he
    · simp at h
    · simp [he, ih h]

theorem perm_textKeys_takeOut (h : find? key es = some v) :
    (key :: textKeys (takeOut key es)).Perm (textKeys es) := by
  simpa [textKeys, textKey?] using (perm_takeOut h).filterMap textKey?

theorem find?_takeOut (h : (textKeys es).Nodup) :
    find? other (takeOut key es) = if key = other then none else find? other es := by
  cases hf : find? key es with
  | none =>
    rw [takeOut_of_find? hf]
    split <;> simp_all
  | some v =>
    have hperm := perm_textKeys_takeOut hf
    have hnodup := List.nodup_cons.mp (hperm.nodup_iff.mpr h)
    split <;> rename_i hk
    · rw [← hk]
      exact find?_eq_none.mpr hnodup.1
    · -- Keys occur once on both sides, so that look-up is membership and the order does not count.
      refine Option.ext fun w => ?_
      rw [find?_eq_some hnodup.2, find?_eq_some h, ← (perm_takeOut hf).mem_iff, List.mem_cons]
      simp [Ne.symm hk]

theorem Keyed.takeOut (h : Keyed es) : Keyed (takeOut key es) := by
  cases hf : find? key es with
  | none => rwa [takeOut_of_find? hf]
  | some v =>
    refine ⟨(List.nodup_cons.mp ((perm_textKeys_takeOut hf).nodup_iff.mpr h.nodup)).2, fun e he => ?_⟩
    exact h.values e ((perm_takeOut hf).subset (List.mem_cons_of_mem _ he))

/-! ## Through tags -/

theorem keyedEntries_iff : keyedEntries es = true ↔ ∀ e ∈ es, e.2.keyed := by
  induction es with
  | nil => simp [keyedEntries]
  | cons e rest ih => simp [keyedEntries, ih]

theorem keyed_mapping : (Value.mapping es).keyed = true ↔ Keyed es := by
  rw [keyed, Bool.and_eq_true, decide_eq_true_iff, keyedEntries_iff]
  exact ⟨fun h => ⟨h.1, h.2⟩, fun h => ⟨h.1, h.2⟩⟩

theorem keyed_entries? : ∀ {v : Value}, v.keyed → v.entries? = some es → Keyed es
  | .mapping _, hv, h => by
    simp only [entries?, Option.some.injEq] at h
    exact h ▸ keyed_mapping.mp hv
  | .tagged _ v, hv, h => keyed_entries? (v := v) (by simpa [keyed] using hv) h
  | .null, _, h | .bool _, _, h | .integer _, _, h | .float _, _, h | .string _, _, h
  | .sequence _, _, h => by simp [entries?] at h

theorem entries?_mapEntries (f : List (Value × Value) → List (Value × Value)) :
    ∀ v : Value, (v.mapEntries f).entries? = v.entries?.map f
  | .mapping _ => rfl
  | .tagged _ v => entries?_mapEntries f v
  | .null | .bool _ | .integer _ | .float _ | .string _ | .sequence _ => rfl

theorem mapEntries_eq_self {f : List (Value × Value) → List (Value × Value)} :
    ∀ {v : Value}, (∀ es, v.entries? = some es → f es = es) → v.mapEntries f = v
  | .mapping es, h => by rw [mapEntries, h es rfl]
  | .tagged _ v, h => by rw [mapEntries, mapEntries_eq_self (v := v) h]
  | .null, _ | .bool _, _ | .integer _, _ | .float _, _ | .string _, _ | .sequence _, _ => rfl

theorem keyed_mapEntries {f : List (Value × Value) → List (Value × Value)} :
    ∀ {v : Value}, v.keyed → (∀ es, Keyed es → Keyed (f es)) → (v.mapEntries f).keyed
  | .mapping _, hv, h => keyed_mapping.mpr (h _ (keyed_mapping.mp hv))
  | .tagged _ v, hv, h => by
    rw [mapEntries, keyed]
    exact keyed_mapEntries (by simpa [keyed] using hv) h
  | .null, hv, _ | .bool _, hv, _ | .integer _, hv, _ | .float _, hv, _ | .string _, hv, _
  | .sequence _, hv, _ => hv

end LayeredConfig.Value
