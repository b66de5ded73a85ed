import LayeredConfig.Name
/-!
# More on finite maps

What the operations on many entries do to the view: entering pairs, taking the entries of a second
map, changing each value, and listing names in order. A map is changed name by name where the names
of the pairs are distinct, and so they are in the entries of a map.
-/

namespace LayeredConfig.Dict

variable {α β : Type} {d e : Dict α} {name : String} {es : List (String × α)}

theorem eq_empty_of_isEmpty (h : d.isEmpty = true) : d = ∅ := by
  obtain ⟨es, hes⟩ := d
  cases es with
  | nil => rfl
  | cons => simp [isEmpty] at h

theorem isEmpty_iff : d.isEmpty = true ↔ ∀ name, d.get? name = none := by
  constructor
  · intro h name
    rw [eq_empty_of_isEmpty h]
    rfl
  · intro h
    rw [show d = ∅ from ext h]
    rfl

theorem contains_iff : d.contains name = true ↔ d.get? name ≠ none := by
  rw [contains, Option.isSome_iff_ne_none]

/-! ## Entries of distinct names -/

/-- No name stands twice in a list of entries. -/
abbrev Distinct (es : List (String × α)) : Prop := es.Pairwise fun x y => x.1 ≠ y.1

theorem distinct_entries (d : Dict α) : Distinct d.entries :=
  d.ascending.imp String.ne_of_lt

theorem lookup_eq_none : lookup name es = none ↔ ∀ x ∈ es, x.1 ≠ name := by
  induction es with
  | nil => simp [lookup]
  | cons x rest ih =>
    rw [lookup]
    split <;> simp_all

theorem get?_insertAll (hes : Distinct es) (name : String) :
    (d.insertAll es).get? name = (lookup name es).or (d.get? name) := by
  induction es generalizing d with
  | nil => rfl
  | cons x rest ih =>
    have ⟨hx, hrest⟩ := List.pairwise_cons.mp hes
    rw [insertAll, List.foldl_cons, ← insertAll, ih hrest, get?_insert, lookup]
    split <;> rename_i hname
    · have : lookup name rest = none :=
        lookup_eq_none.mpr fun y hy heq => hx y hy (hname.trans heq.symm)
      simp [this]
    · rfl

theorem get?_ofList (hes : Distinct es) (name : String) : (ofList es).get? name = lookup name es := by
  rw [ofList, get?_insertAll hes, get?_empty, Option.or_none]

/-- A map is that of its own entries. -/
theorem ofList_entries (d : Dict α) : ofList d.entries = d :=
  ext fun name => get?_ofList d.distinct_entries name

theorem get?_override (d e : Dict α) (name : String) :
    (d.override e).get? name = (e.get? name).or (d.get? name) :=
  get?_insertAll e.distinct_entries name

/-! ## Changing each value -/

/-- Changes each value, if all of them can be changed. -/
def mapEntries? (f : String → α → Option β) (es : List (String × α)) : Option (List (String × β)) :=
  es.mapM fun x => (f x.1 x.2).map (x.1, ·)

theorem mapEntries?_cons {f : String → α → Option β} {x : String × α} {out : List (String × β)} :
    mapEntries? f (x :: es) = some out ↔
      ∃ b rest, f x.1 x.2 = some b ∧ mapEntries? f es = some rest ∧ out = (x.1, b) :: rest := by
  simp only [mapEntries?, List.mapM_cons, Option.bind_eq_bind, Option.pure_def,
    Option.bind_eq_some_iff, Option.map_eq_some_iff, Option.some.injEq]
  constructor
  · rintro ⟨_, ⟨b, hb, rfl⟩, rest, hrest, rfl⟩
    exact ⟨b, rest, hb, hrest, rfl⟩
  · rintro ⟨b, rest, hb, hrest, rfl⟩
    exact ⟨_, ⟨b, hb, rfl⟩, rest, hrest, rfl⟩

theorem lookup_mapEntries? {f : String → α → Option β} {out : List (String × β)}
    (h : mapEntries? f es = some out) (name : String) :
    lookup name out = (lookup name es).bind (f name) ∧
      ∀ a, lookup name es = some a → f name a ≠ none := by
  induction es generalizing out with
  | nil =>
    simp only [mapEntries?, List.mapM_nil, Option.pure_def, Option.some.injEq] at h
    simp [← h, lookup]
  | cons x es ih =>
    obtain ⟨b, rest, hb, hrest, rfl⟩ := mapEntries?_cons.mp h
    rw [lookup, lookup]
    split <;> rename_i hname
    · subst hname
      simp [hb]
    · exact ih hrest

theorem distinct_mapEntries? {f : String → α → Option β} {out : List (String × β)}
    (hes : Distinct es) (h : mapEntries? f es = some out) : Distinct out := by
  induction es generalizing out with
  | nil =>
    simp only [mapEntries?, List.mapM_nil, Option.pure_def, Option.some.injEq] at h
    simp [← h]
  | cons x es ih =>
    obtain ⟨b, rest, hb, hrest, rfl⟩ := mapEntries?_cons.mp h
    have ⟨hx, hes⟩ := List.pairwise_cons.mp hes
    refine List.pairwise_cons.mpr ⟨fun y hy heq => ?_, ih hes hrest⟩
    have hnone : lookup x.1 es = none := lookup_eq_none.mpr fun z hz => (hx z hz).symm
    have := (lookup_mapEntries? hrest x.1).1
    rw [hnone] at this
    exact lookup_eq_none.mp this y hy heq.symm

theorem exists_mapEntries? {f : String → α → Option β} (h : ∀ x ∈ es, f x.1 x.2 ≠ none) :
    ∃ out, mapEntries? f es = some out := by
  induction es with
  | nil => exact ⟨[], rfl⟩
  | cons x es ih =>
    obtain ⟨b, hb⟩ := Option.ne_none_iff_exists'.mp (h x (by simp))
    obtain ⟨rest, hrest⟩ := ih fun y hy => h y (by simp [hy])
    exact ⟨_, mapEntries?_cons.mpr ⟨b, rest, hb, hrest, rfl⟩⟩

/-! ## Names -/

/-- The entries under some names. -/
def restrict (names : List String) (d : Dict α) : Dict α := d.filterKeys names.contains

theorem get?_restrict (names : List String) (d : Dict α) (name : String) :
    (d.restrict names).get? name = if name ∈ names then d.get? name else none := by
  rw [restrict, get?_filterKeys]
  simp

/-- A map is all of itself where all its names are asked for. -/
theorem restrict_eq_self {names : List String} (h : ∀ name ∈ d.keys, name ∈ names) :
    d.restrict names = d := by
  refine ext fun name => ?_
  rw [get?_restrict]
  split <;> rename_i hname
  · rfl
  · cases hd : d.get? name with
    | none => rfl
    | some a => exact absurd (h name (mem_keys.mpr (by simp [contains, hd]))) hname

theorem restrict_nil (d : Dict α) : d.restrict [] = ∅ := by
  refine ext fun name => ?_
  rw [get?_restrict, if_neg List.not_mem_nil]
  rfl

theorem restrict_restrict (names : List String) (d : Dict α) :
    (d.restrict names).restrict names = d.restrict names := by
  refine ext fun name => ?_
  rw [get?_restrict, get?_restrict]
  split <;> rfl

/-- A map has all of what is taken from it. -/
theorem override_restrict (d : Dict α) (names : List String) : d.override (d.restrict names) = d := by
  refine ext fun name => ?_
  rw [get?_override, get?_restrict]
  split
  · exact Option.or_self
  · rfl

/-- Enters the value that a map has under a name, if it has one. -/
def collect (d found : Dict α) (name : String) : Dict α :=
  (d.get? name).elim found (found.insert name)

theorem get?_foldl_collect (names : List String) (found : Dict α) (name : String) :
    (names.foldl d.collect found).get? name =
      if name ∈ names then (d.get? name).or (found.get? name) else found.get? name := by
  induction names generalizing found with
  | nil => simp
  | cons n names ih =>
    rw [List.foldl_cons, ih, collect]
    cases hn : d.get? n with
    | none => by_cases h : name = n <;> simp [h, hn]
    | some a =>
      by_cases h : n = name
      · simp [← h, hn, get?_insert]
      · simp [get?_insert, h, Ne.symm h]

theorem foldl_collect (names : List String) : names.foldl d.collect ∅ = d.restrict names := by
  refine ext fun name => ?_
  rw [get?_foldl_collect, get?_restrict, show (∅ : Dict α).get? name = none from rfl,
    Option.or_none]

theorem contains_insertAll :
    (d.insertAll es).contains name = true ↔ (∃ x ∈ es, x.1 = name) ∨ d.contains name = true := by
  induction es generalizing d with
  | nil => simp [insertAll]
  | cons x rest ih =>
    rw [insertAll, List.foldl_cons, ← insertAll, ih]
    simp only [contains, get?_insert, List.mem_cons, exists_eq_or_imp]
    split <;> simp_all

end LayeredConfig.Dict

namespace LayeredConfig.Name

theorem mem_sortedUnique {names : List String} {name : String} :
    name ∈ sortedUnique names ↔ name ∈ names := by
  rw [sortedUnique, Dict.mem_keys, Dict.ofList, Dict.contains_insertAll]
  simp [Dict.contains]

theorem pairwise_sortedUnique (names : List String) : (sortedUnique names).Pairwise (· < ·) :=
  Dict.pairwise_keys _

theorem nodup_sortedUnique (names : List String) : (sortedUnique names).Nodup :=
  (pairwise_sortedUnique names).imp String.ne_of_lt

/-- Names in ascending order are determined by which they are. -/
theorem eq_of_ascending {xs ys : List String} (hxs : xs.Pairwise (· < ·)) (hys : ys.Pairwise (· < ·))
    (h : ∀ name, name ∈ xs ↔ name ∈ ys) : xs = ys := by
  have hperm : xs.Perm ys := by
    rw [List.perm_ext_iff_of_nodup (hxs.imp String.ne_of_lt) (hys.imp String.ne_of_lt)]
    exact h
  exact hperm.eq_of_pairwise (fun x y _ _ hxy hyx => absurd hyx (String.lt_asymm hxy)) hxs hys

theorem sortedUnique_of_ascending {names : List String} (h : names.Pairwise (· < ·)) :
    sortedUnique names = names :=
  eq_of_ascending (pairwise_sortedUnique names) h fun _ => mem_sortedUnique

/-- Names that are there already add nothing. -/
theorem sortedUnique_append_of_subset {names more : List String} (h : names.Pairwise (· < ·))
    (hmore : more ⊆ names) : sortedUnique (names ++ more) = names := by
  refine eq_of_ascending (pairwise_sortedUnique _) h fun name => ?_
  rw [mem_sortedUnique, List.mem_append]
  exact ⟨fun hname => hname.elim id (hmore ·), .inl⟩

end LayeredConfig.Name

namespace LayeredConfig

/-! ## Maps that are related name by name -/

/-- Where two values are related or both missing, one is missing if the other is. -/
theorem eq_none_iff_of_rel {α β : Type} {R : α → β → Prop} {a : Option α} {b : Option β}
    (h : Option.Rel R a b) : a = none ↔ b = none := by
  cases h <;> simp

theorem rel_eq_iff {α : Type} {a b : Option α} : Option.Rel Eq a b ↔ a = b := by
  constructor
  · intro h
    cases h with
    | none => rfl
    | some h => rw [h]
  · rintro rfl
    cases a with
    | none => exact .none
    | some => exact .some rfl

theorem Dict.keys_eq_of_rel {α β : Type} {R : α → β → Prop} {d : Dict α} {e : Dict β}
    (h : ∀ name, Option.Rel R (d.get? name) (e.get? name)) : d.keys = e.keys := by
  apply Name.eq_of_ascending d.pairwise_keys e.pairwise_keys
  intro name
  rw [Dict.mem_keys, Dict.mem_keys, Dict.contains_iff, Dict.contains_iff, ne_eq, ne_eq,
    eq_none_iff_of_rel (h name)]

end LayeredConfig
