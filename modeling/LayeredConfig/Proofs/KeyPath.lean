import LayeredConfig.KeyPath
import LayeredConfig.Proofs.Mapping
/-!
# Laws of key paths

What setting and taking out a value does to the values at all paths: the value at the path itself is
the new one, or there is none, and values at paths `Apart` from it stay. Setting what is there and
taking out what is not there change nothing, not even the order of a mapping.
-/

namespace LayeredConfig

/-- Neither of two lists of keys leads through the other one's place. -/
def Apart (p q : List String) : Prop := ¬ p <+: q ∧ ¬ q <+: p

instance (p q : List String) : Decidable (Apart p q) := inferInstanceAs (Decidable (_ ∧ _))

theorem apart_cons {k l : String} {p q : List String} :
    Apart (k :: p) (l :: q) ↔ k = l → Apart p q := by
  simp only [Apart, List.cons_prefix_cons]
  constructor
  · rintro ⟨h, h'⟩ rfl
    exact ⟨fun hp => h ⟨rfl, hp⟩, fun hp => h' ⟨rfl, hp⟩⟩
  · intro h
    exact ⟨fun hp => (h hp.1).1 hp.2, fun hp => (h hp.1.symm).2 hp.2⟩

theorem not_apart_nil {p : List String} : ¬ Apart [] p := fun h => h.1 List.nil_prefix

namespace Value

variable {v w new : Value} {p q : List String}

/-! ## Look-up -/

theorem at?_cons (k : String) : at? (k :: p) v = (v.entries?.bind (find? k)).bind (at? p) := rfl

theorem at?_append (p q : List String) (v : Value) : at? (p ++ q) v = (at? p v).bind (at? q) := by
  induction p generalizing v with
  | nil => rfl
  | cons k p ih =>
    rw [List.cons_append, at?_cons, at?_cons]
    cases v.entries?.bind (find? k) with
    | none => rfl
    | some u => exact ih u

theorem keyed_find? {k : String} (hv : v.keyed) (h : v.entries?.bind (find? k) = some w) :
    w.keyed := by
  obtain ⟨es, hes, hf⟩ := Option.bind_eq_some_iff.mp h
  exact (keyed_entries? hv hes).values _ (mem_of_find? hf)

theorem keyed_at? (hv : v.keyed) (h : at? p v = some w) : w.keyed := by
  induction p generalizing v with
  | nil =>
    simp only [at?, Option.some.injEq] at h
    exact h ▸ hv
  | cons k p ih =>
    obtain ⟨u, hu, hw⟩ := Option.bind_eq_some_iff.mp h
    exact ih (keyed_find? hv hu) hw

/-! ## Setting a value -/

theorem find?_ground? {k : String} {es : List (Value × Value)} (h : v.ground? = some es) :
    v.entries?.bind (find? k) = find? k es := by
  cases v with
  | mapping => simp_all [ground?, entries?]
  | tagged t v =>
    simp only [ground?] at h
    split at h
    · cases h
    · rename_i hn
      simp only [Option.some.injEq] at h
      simp [Option.not_isSome_iff_eq_none.mp hn, ← h, find?]
  | _ => simp_all [ground?, entries?, find?]

/-- What setting a value below a key does, where it has an answer. -/
theorem with?_cons {k : String} {r : Value} (h : with? new (k :: p) v = some r) :
    ∃ es inner, v.ground? = some es ∧
      with? new p ((find? k es).getD (.mapping [])) = some inner ∧ r = .mapping (put k inner es) := by
  obtain ⟨es, hes, h⟩ := Option.bind_eq_some_iff.mp h
  obtain ⟨inner, hinner, rfl⟩ := Option.map_eq_some_iff.mp h
  exact ⟨es, inner, hes, hinner, rfl⟩

theorem at?_with? {r : Value} (h : with? new p v = some r) : at? p r = some new := by
  induction p generalizing v r with
  | nil => simpa [with?, at?, eq_comm] using h
  | cons k p ih =>
    obtain ⟨es, inner, -, hinner, rfl⟩ := with?_cons h
    rw [at?_cons, entries?, Option.bind_some, find?_put, if_pos rfl, Option.bind_some, ih hinner]

theorem at?_with?_of_apart {r : Value} (hpq : Apart p q) (h : with? new p v = some r) :
    at? q r = at? q v := by
  induction p generalizing v r q with
  | nil => exact absurd hpq not_apart_nil
  | cons k p ih =>
    cases q with
    | nil => exact absurd List.nil_prefix hpq.2
    | cons l q =>
      obtain ⟨es, inner, hes, hinner, rfl⟩ := with?_cons h
      rw [at?_cons, at?_cons, find?_ground? hes, entries?, Option.bind_some, find?_put]
      split <;> rename_i hkl
      · have hpq := apart_cons.mp hpq hkl
        rw [Option.bind_some, ih hpq hinner, ← hkl]
        cases hf : find? k es with
        | some u => rfl
        | none =>
          -- Below a mapping that was made on the way, there is nothing at a longer path.
          cases q with
          | nil => exact absurd List.nil_prefix hpq.2
          | cons => rfl
      · rfl

/-- Setting what is there changes nothing. -/
theorem with?_at? {r : Value} (hv : at? p v = some new) (h : with? new p v = some r) : r = v := by
  induction p generalizing v r with
  | nil =>
    simp only [at?, with?, Option.some.injEq] at hv h
    rw [← h, hv]
  | cons k p ih =>
    obtain ⟨es, inner, hes, hinner, rfl⟩ := with?_cons h
    obtain ⟨u, hu, hnew⟩ := Option.bind_eq_some_iff.mp hv
    rw [find?_ground? hes] at hu
    have hmapping : v = .mapping es := by
      cases v with
      | mapping => simpa [ground?] using hes
      | tagged t v =>
        simp only [ground?] at hes
        split at hes <;> simp_all [find?]
      | _ => simp_all [ground?, entries?, find?]
    rw [hu, Option.getD_some] at hinner
    rw [ih hnew hinner, put_of_find? hu, hmapping]

theorem keyed_ground? {es : List (Value × Value)} (hv : v.keyed) (h : v.ground? = some es) :
    Keyed es := by
  cases v with
  | mapping => simpa [← Option.some.inj h] using keyed_mapping.mp hv
  | tagged t v =>
    simp only [ground?] at h
    split at h
    · cases h
    · simp only [Option.some.injEq] at h
      exact h ▸ ⟨List.nodup_nil, by simp⟩
  | _ =>
    simp only [ground?, entries?, Option.isSome_none, Bool.false_eq_true, if_false,
      Option.some.injEq] at h
    exact h ▸ ⟨List.nodup_nil, by simp⟩

theorem keyed_with? {r : Value} (hv : v.keyed) (hnew : new.keyed) (h : with? new p v = some r) :
    r.keyed := by
  induction p generalizing v r with
  | nil =>
    simp only [with?, Option.some.injEq] at h
    exact h ▸ hnew
  | cons k p ih =>
    obtain ⟨es, inner, hes, hinner, rfl⟩ := with?_cons h
    have hes := keyed_ground? hv hes
    refine keyed_mapping.mpr (hes.put (ih ?_ hinner))
    cases hf : find? k es with
    | none => rfl
    | some u => exact hes.values _ (mem_of_find? hf)

/-! ## Taking a value out -/

/-- Taking out below a key changes the value under the key. -/
theorem without_cons (k l : String) (v : Value) :
    without (k :: l :: p) v = v.mapEntries (adjust k (without (l :: p))) := rfl

theorem keyed_without (hv : v.keyed) : (without p v).keyed := by
  induction p generalizing v with
  | nil => exact hv
  | cons k p ih =>
    cases p with
    | nil => exact keyed_mapEntries hv fun es hes => hes.takeOut
    | cons l p => exact keyed_mapEntries hv fun es hes => hes.adjust fun v hv => ih hv

/-- The value under a first key after taking out a path. -/
theorem find?_without {k l : String} (hv : v.keyed) :
    (without (k :: p) v).entries?.bind (find? l) =
      if k = l then
        (if p = [] then none else (v.entries?.bind (find? l)).map (without p))
      else v.entries?.bind (find? l) := by
  cases p with
  | nil =>
    rw [without, entries?_mapEntries]
    cases hes : v.entries? with
    | none => split <;> rfl
    | some es => simpa using find?_takeOut (keyed_entries? hv hes).nodup
  | cons m p =>
    rw [without_cons, entries?_mapEntries]
    cases hes : v.entries? with
    | none => split <;> rfl
    | some es => simpa using find?_adjust _

theorem at?_without (hv : v.keyed) (hp : p ≠ []) : at? p (without p v) = none := by
  induction p generalizing v with
  | nil => exact absurd rfl hp
  | cons k p ih =>
    rw [at?_cons, find?_without hv, if_pos rfl]
    split
    · rfl
    · rename_i hp
      cases hu : v.entries?.bind (find? k) with
      | none => rfl
      | some u => exact ih (keyed_find? hv hu) hp

theorem at?_without_of_apart (hv : v.keyed) (hpq : Apart p q) :
    at? q (without p v) = at? q v := by
  induction p generalizing v q with
  | nil => exact absurd hpq not_apart_nil
  | cons k p ih =>
    cases q with
    | nil => exact absurd List.nil_prefix hpq.2
    | cons l q =>
      rw [at?_cons, at?_cons, find?_without hv]
      split <;> rename_i hkl
      · have hpq := apart_cons.mp hpq hkl
        have hp : p ≠ [] := fun hp => not_apart_nil (hp ▸ hpq)
        rw [if_neg hp]
        cases hu : v.entries?.bind (find? l) with
        | none => rfl
        | some u => exact ih (keyed_find? hv hu) hpq
      · rfl

/-- Taking out what is not there changes nothing. -/
theorem without_of_at? (h : at? p v = none) : without p v = v := by
  induction p generalizing v with
  | nil => simp [at?] at h
  | cons k p ih =>
    have hfind : ∀ es, v.entries? = some es → (find? k es).bind (at? p) = none := by
      intro es hes
      simpa [at?_cons, hes] using h
    cases p with
    | nil =>
      refine mapEntries_eq_self fun es hes => takeOut_of_find? ?_
      have := hfind es hes
      cases hf : find? k es <;> simp_all [at?]
    | cons l p =>
      refine mapEntries_eq_self fun es hes => adjust_eq_self fun u hu => ih ?_
      simpa [hu] using hfind es hes

end Value

/-! ## Documents -/

namespace Document

variable {d r : Document} {p q : KeyPath} {new : Value}

/-- Whether all values of a document are `keyed`. -/
def keyed (d : Document) : Bool := d.entries.all fun e => e.2.keyed

theorem keyed_iff : d.keyed = true ↔ ∀ name v, d.get? name = some v → v.keyed := by
  rw [keyed, List.all_eq_true]
  constructor
  · intro h name v hv
    exact h _ (Dict.lookup_eq_some hv)
  · intro h e he
    exact h e.1 e.2 (Dict.lookup_of_mem d.ascending he)

theorem at?_with? (h : d.with? p new = some r) : r.at? p = some new := by
  obtain ⟨inner, hinner, rfl⟩ := Option.map_eq_some_iff.mp h
  rw [at?, Dict.get?_insert, if_pos rfl, Option.bind_some, Value.at?_with? hinner]

theorem at?_with?_of_apart (hpq : Apart p.segments q.segments) (h : d.with? p new = some r) :
    r.at? q = d.at? q := by
  obtain ⟨inner, hinner, rfl⟩ := Option.map_eq_some_iff.mp h
  rw [at?, at?, Dict.get?_insert]
  split <;> rename_i hfirst
  · have hrest := apart_cons.mp hpq hfirst
    rw [Option.bind_some, Value.at?_with?_of_apart hrest hinner, ← hfirst]
    cases hf : d.get? p.first with
    | some u => rfl
    | none =>
      cases hq : q.rest with
      | nil => exact absurd (hq ▸ List.nil_prefix) hrest.2
      | cons => rfl
  · rfl

/-- Setting what is there changes nothing. -/
theorem with?_at? (hd : d.at? p = some new) (h : d.with? p new = some r) : r = d := by
  obtain ⟨inner, hinner, rfl⟩ := Option.map_eq_some_iff.mp h
  obtain ⟨u, hu, hnew⟩ := Option.bind_eq_some_iff.mp hd
  rw [hu, Option.getD_some] at hinner
  rw [Value.with?_at? hnew hinner, Dict.insert_of_get? hu]

theorem keyed_with? (hd : d.keyed) (hnew : new.keyed) (h : d.with? p new = some r) : r.keyed := by
  obtain ⟨inner, hinner, rfl⟩ := Option.map_eq_some_iff.mp h
  rw [keyed_iff] at hd ⊢
  intro name v hv
  rw [Dict.get?_insert] at hv
  split at hv
  · rw [← Option.some.inj hv]
    refine Value.keyed_with? ?_ hnew hinner
    cases hf : d.get? p.first with
    | none => rfl
    | some u => exact hd _ _ hf
  · exact hd _ _ hv

/-- The value under a name after taking out a path. -/
theorem get?_without (name : String) :
    (d.without p).get? name =
      if p.first = name then
        (if p.rest = [] then none else (d.get? name).map (Value.without p.rest))
      else d.get? name := by
  cases hp : p.rest with
  | nil => simp [without, hp, Dict.get?_erase]
  | cons k rest =>
    cases hf : d.get? p.first with
    | none =>
      simp only [without, hp, hf]
      split <;> simp_all
    | some v =>
      simp only [without, hp, hf, Dict.get?_insert]
      split <;> simp_all

theorem at?_without (hd : d.keyed) : (d.without p).at? p = none := by
  rw [at?, get?_without, if_pos rfl]
  split
  · rfl
  · rename_i hp
    cases hu : d.get? p.first with
    | none => rfl
    | some u => exact Value.at?_without (keyed_iff.mp hd _ _ hu) hp

theorem at?_without_of_apart (hd : d.keyed) (hpq : Apart p.segments q.segments) :
    (d.without p).at? q = d.at? q := by
  rw [at?, at?, get?_without]
  split <;> rename_i hfirst
  · have hrest := apart_cons.mp hpq hfirst
    rw [if_neg fun hp => not_apart_nil (hp ▸ hrest)]
    cases hu : d.get? q.first with
    | none => rfl
    | some u => exact Value.at?_without_of_apart (keyed_iff.mp hd _ _ hu) hrest
  · rfl

/-- Taking out what is not there changes nothing. -/
theorem without_of_at? (h : d.at? p = none) : d.without p = d := by
  refine Dict.ext fun name => ?_
  rw [get?_without]
  split <;> rename_i hfirst
  · subst hfirst
    cases hu : d.get? p.first with
    | none => split <;> rfl
    | some u =>
      have hnone : Value.at? p.rest u = none := by simpa [at?, hu] using h
      rw [if_neg fun hp => by simp [hp, Value.at?] at hnone, Option.map_some,
        Value.without_of_at? hnone]
  · rfl

theorem keyed_without (hd : d.keyed) : (d.without p).keyed := by
  rw [keyed_iff] at hd ⊢
  intro name v hv
  rw [get?_without] at hv
  split at hv
  · split at hv
    · cases hv
    · obtain ⟨u, hu, rfl⟩ := Option.map_eq_some_iff.mp hv
      exact Value.keyed_without (hd _ _ hu)
  · exact hd _ _ hv

theorem keyed_at? {v : Value} (hd : d.keyed) (h : d.at? p = some v) : v.keyed := by
  obtain ⟨u, hu, hv⟩ := Option.bind_eq_some_iff.mp h
  exact Value.keyed_at? (keyed_iff.mp hd _ _ hu) hv

/-- The value at a path that leads through another one's place. -/
theorem at?_of_prefix (h : p.segments <+: q.segments) :
    ∃ rest, q.segments = p.segments ++ rest ∧
      ∀ d : Document, d.at? q = (d.at? p).bind (Value.at? rest) := by
  obtain ⟨rest, hrest⟩ := h
  have ⟨hfirst, htail⟩ := List.cons.inj hrest
  refine ⟨rest, hrest.symm, fun d => ?_⟩
  rw [at?, at?, ← hfirst, ← htail]
  cases d.get? p.first with
  | none => rfl
  | some u => exact Value.at?_append _ _ u

end Document

end LayeredConfig
