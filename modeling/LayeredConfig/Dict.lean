/-!
# Finite maps from names

A `Dict α` holds one value for each of finitely many names, in ascending order of the names. Names
compare by code points, which is also the order of their UTF-8 bytes. The view is `Dict.get?`: each
operation says what it does to it, and `Dict.ext` says that the view is all there is.
-/

namespace LayeredConfig

/-- A map from names to values, listed in strictly ascending order of the names. -/
structure Dict (α : Type) where
  entries : List (String × α)
  ascending : entries.Pairwise (fun a b => a.1 < b.1)

namespace Dict

variable {α β : Type}

/-! ## Lists of entries -/

/-- The value under a name in a list of entries. -/
def lookup (name : String) : List (String × α) → Option α
  | [] => none
  | e :: rest => if e.1 = name then some e.2 else lookup name rest

/-- Puts a value at its place in an ascending list, instead of an earlier one under the name. -/
def place (name : String) (a : α) : List (String × α) → List (String × α)
  | [] => [(name, a)]
  | e :: rest =>
    if name < e.1 then (name, a) :: e :: rest
    else if e.1 = name then (name, a) :: rest
    else e :: place name a rest

theorem mem_place {name : String} {a : α} {x : String × α} {es : List (String × α)}
    (h : x ∈ place name a es) : x = (name, a) ∨ x ∈ es := by
  induction es with
  | nil => simpa [place] using h
  | cons e rest ih =>
    rw [place] at h
    split at h
    · simpa using h
    · split at h
      · rcases List.mem_cons.mp h with h | h <;> simp [h]
      · rcases List.mem_cons.mp h with h | h
        · simp [h]
        · rcases ih h with h | h <;> simp [h]

theorem pairwise_place {name : String} {a : α} {es : List (String × α)}
    (h : es.Pairwise (fun a b => a.1 < b.1)) :
    (place name a es).Pairwise (fun a b => a.1 < b.1) := by
  induction es with
  | nil => simp [place]
  | cons e rest ih =>
    have ⟨he, hr⟩ := List.pairwise_cons.mp h
    rw [place]
    split
    · rename_i hlt
      refine List.pairwise_cons.mpr ⟨fun x hx => ?_, h⟩
      rcases List.mem_cons.mp hx with rfl | hx
      · exact hlt
      · exact String.lt_trans hlt (he x hx)
    · split
      · rename_i heq
        exact List.pairwise_cons.mpr ⟨fun x hx => heq ▸ he x hx, hr⟩
      · rename_i hlt hne
        refine List.pairwise_cons.mpr ⟨fun x hx => ?_, ih hr⟩
        rcases mem_place hx with rfl | hx
        · exact Decidable.byContradiction fun hn =>
            hne (String.le_antisymm (String.not_lt.mp hlt) (String.not_lt.mp hn))
        · exact he x hx

theorem lookup_place (name other : String) (a : α) (es : List (String × α)) :
    lookup other (place name a es) = if name = other then some a else lookup other es := by
  induction es with
  | nil => simp [place, lookup]
  | cons e rest ih =>
    rw [place]
    split
    · simp [lookup]
    · split
      · rename_i heq
        by_cases h : name = other <;> simp [lookup, h, heq]
      · rename_i hne
        by_cases h : name = other
        · subst h
          simp [lookup, hne, ih]
        · by_cases he : e.1 = other <;> simp [lookup, he, h, ih]

theorem lookup_eq_some {name : String} {a : α} {es : List (String × α)}
    (h : lookup name es = some a) : (name, a) ∈ es := by
  induction es with
  | nil => simp [lookup] at h
  | cons e rest ih =>
    rw [lookup] at h
    split at h
    · rename_i he
      simp only [Option.some.injEq] at h
      simp [← he, ← h]
    · exact List.mem_cons_of_mem _ (ih h)

theorem lookup_of_mem {name : String} {a : α} {es : List (String × α)}
    (hes : es.Pairwise (fun a b => a.1 < b.1)) (h : (name, a) ∈ es) :
    lookup name es = some a := by
  induction es with
  | nil => simp at h
  | cons e rest ih =>
    have ⟨he, hr⟩ := List.pairwise_cons.mp hes
    rcases List.mem_cons.mp h with rfl | h
    · simp [lookup]
    · have hlt : e.1 < name := he (name, a) h
      have : e.1 ≠ name := fun heq => String.lt_irrefl name (heq ▸ hlt)
      simp [lookup, this, ih hr h]

theorem lookup_filter (p : String → Bool) (name : String) (es : List (String × α)) :
    lookup name (es.filter fun e => p e.1) = if p name then lookup name es else none := by
  induction es with
  | nil => simp [lookup]
  | cons e rest ih =>
    by_cases h : e.1 = name
    · subst h
      by_cases hp : p e.1 <;> simp_all [lookup]
    · by_cases hp : p e.1 <;> simp [lookup, hp, h, ih]

/-! ## Operations -/

/-- The map without entries. -/
def empty : Dict α := ⟨[], .nil⟩

instance : Inhabited (Dict α) := ⟨empty⟩

instance : EmptyCollection (Dict α) := ⟨empty⟩

/-- The value under a name. -/
def get? (d : Dict α) (name : String) : Option α := lookup name d.entries

/-- Whether a name has a value. -/
def contains (d : Dict α) (name : String) : Bool := (d.get? name).isSome

/-- The names that have a value, in ascending order. -/
def keys (d : Dict α) : List String := d.entries.map (·.1)

/-- Whether no name has a value. -/
def isEmpty (d : Dict α) : Bool := d.entries.isEmpty

/-- Gives a name a value, instead of an earlier one. -/
def insert (d : Dict α) (name : String) (a : α) : Dict α :=
  ⟨place name a d.entries, pairwise_place d.ascending⟩

/-- Keeps the names that pass a test. -/
def filterKeys (p : String → Bool) (d : Dict α) : Dict α :=
  ⟨d.entries.filter fun e => p e.1, d.ascending.filter _⟩

/-- Takes a name out. -/
def erase (d : Dict α) (name : String) : Dict α := d.filterKeys (· != name)

/-- Enters pairs one after the other: the last pair under a name counts. -/
def insertAll (d : Dict α) (pairs : List (String × α)) : Dict α :=
  pairs.foldl (fun d e => d.insert e.1 e.2) d

/-- The map of a list of pairs: the last pair under a name counts. -/
def ofList (pairs : List (String × α)) : Dict α := empty.insertAll pairs

/-- All entries of two maps; under a name that both have, the second map's value. -/
def override (d e : Dict α) : Dict α := d.insertAll e.entries

/-! ## The view -/

theorem ext {d e : Dict α} (h : ∀ name, d.get? name = e.get? name) : d = e := by
  obtain ⟨xs, hx⟩ := d
  obtain ⟨ys, hy⟩ := e
  simp only [get?] at h
  simp only [mk.injEq]
  induction xs generalizing ys with
  | nil =>
    cases ys with
    | nil => rfl
    | cons y ys => simpa [lookup] using h y.1
  | cons x xs ih =>
    cases ys with
    | nil => simpa [lookup] using h x.1
    | cons y ys =>
      have ⟨hx', hxs⟩ := List.pairwise_cons.mp hx
      have ⟨hy', hys⟩ := List.pairwise_cons.mp hy
      have hxy : x.1 = y.1 := by
        have h1 : (x.1, x.2) ∈ y :: ys := lookup_eq_some (by rw [← h]; simp [lookup])
        have h2 : (y.1, y.2) ∈ x :: xs := lookup_eq_some (by rw [h]; simp [lookup])
        rcases List.mem_cons.mp h1 with h1 | h1
        · exact congrArg (·.1) h1
        · rcases List.mem_cons.mp h2 with h2 | h2
          · exact (congrArg (·.1) h2).symm
          · exact absurd (hx' _ h2) (String.lt_asymm (hy' _ h1))
      have hval : x.2 = y.2 := by
        have := h x.1
        simpa [lookup, hxy] using this
      have hrest : xs = ys := by
        refine ih hxs ys hys fun name => ?_
        have := h name
        simp only [lookup, hxy] at this
        by_cases hn : y.1 = name
        · subst hn
          have h1 : lookup y.1 xs = none := by
            refine Option.eq_none_iff_forall_ne_some.mpr fun a ha => ?_
            have hlt : x.1 < y.1 := hx' (y.1, a) (lookup_eq_some ha)
            exact String.lt_irrefl y.1 (hxy ▸ hlt)
          have h2 : lookup y.1 ys = none := by
            refine Option.eq_none_iff_forall_ne_some.mpr fun a ha => ?_
            exact String.lt_irrefl y.1 (hy' (y.1, a) (lookup_eq_some ha))
          rw [h1, h2]
        · simpa [hn] using this
      rw [hrest, show x = y from Prod.ext hxy hval]

@[simp] theorem get?_empty (name : String) : (empty : Dict α).get? name = none := rfl

theorem get?_insert (d : Dict α) (name other : String) (a : α) :
    (d.insert name a).get? other = if name = other then some a else d.get? other :=
  lookup_place name other a d.entries

theorem get?_filterKeys (p : String → Bool) (d : Dict α) (name : String) :
    (d.filterKeys p).get? name = if p name then d.get? name else none :=
  lookup_filter p name d.entries

theorem get?_erase (d : Dict α) (name other : String) :
    (d.erase name).get? other = if name = other then none else d.get? other := by
  by_cases h : name = other
  · simp [erase, get?_filterKeys, h]
  · simp [erase, get?_filterKeys, h, Ne.symm h]

/-- Entering what is there changes nothing. -/
theorem insert_of_get? {d : Dict α} {name : String} {a : α} (h : d.get? name = some a) :
    d.insert name a = d := by
  refine ext fun other => ?_
  rw [get?_insert]
  split <;> simp_all

/-- Taking out what is not there changes nothing. -/
theorem erase_of_get? {d : Dict α} {name : String} (h : d.get? name = none) : d.erase name = d := by
  refine ext fun other => ?_
  rw [get?_erase]
  split <;> simp_all

theorem mem_keys {d : Dict α} {name : String} : name ∈ d.keys ↔ d.contains name := by
  simp only [keys, contains, get?, List.mem_map]
  constructor
  · rintro ⟨e, he, rfl⟩
    simp [lookup_of_mem d.ascending he]
  · intro h
    obtain ⟨a, ha⟩ := Option.isSome_iff_exists.mp h
    exact ⟨_, lookup_eq_some ha, rfl⟩

theorem pairwise_keys (d : Dict α) : d.keys.Pairwise (· < ·) :=
  List.pairwise_map.mpr d.ascending

end Dict

end LayeredConfig
