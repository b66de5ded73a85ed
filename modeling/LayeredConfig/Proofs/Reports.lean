import LayeredConfig.Proofs.RoundTrip
import Mathlib.Data.List.Nodup
import Mathlib.Data.Set.Card
/-!
# What a transfer reports

A transfer between two shelves, where the target refuses to write and to delete documents of some names.
What it does about one document follows from what the two shelves had under its name (`outcome`), and each
document is visited at most once (`run_tallies`). So the four numbers of the report are the numbers of the
documents for which that was done, over all collections (`import_reports`), and a second transfer has
nothing left to do.
-/

namespace LayeredConfig

open World

/-- What a transfer does about one document. -/
inductive Action
  | created
  | updated
  | deleted
  | unchanged
  deriving DecidableEq

namespace Report

/-- Counts what was done, if anything was. -/
def tally (r : Report) : Option Action → Report
  | none => r
  | some .created => { r with created := r.created + 1 }
  | some .updated => { r with updated := r.updated + 1 }
  | some .deleted => { r with deleted := r.deleted + 1 }
  | some .unchanged => { r with unchanged := r.unchanged + 1 }

/-- How often something was done. -/
def count (r : Report) : Action → Nat
  | .created => r.created
  | .updated => r.updated
  | .deleted => r.deleted
  | .unchanged => r.unchanged

theorem count_tally (r : Report) (o : Option Action) (k : Action) :
    (r.tally o).count k = r.count k + if o = some k then 1 else 0 := by
  rcases o with _ | _ | _ | _ | _ <;> cases k <;> simp [tally, count]

theorem count_foldl_tally (ks : List (Option Action)) (r : Report) (k : Action) :
    (ks.foldl tally r).count k = r.count k + ks.count (some k) := by
  induction ks generalizing r with
  | nil => rfl
  | cons o ks ih =>
    rw [List.foldl_cons, ih, count_tally, List.count_cons]
    simp only [beq_iff_eq]
    omega

theorem count_zero (k : Action) : Report.zero.count k = 0 := by
  cases k <;> rfl

end Report

/-! ## A target that refuses -/

/-- A collection of a shelf that refuses to write and to delete documents of some names. -/
structure Refusing where
  number : Nat
  collection : String
  refused : String → Bool

namespace Refusing

/-- The operations on it. What is refused is answered with no, and changes nothing. -/
def storage (t : Refusing) : Storage World :=
  let shelf := (Store.shelf t.number t.collection).storage
  { shelf with
    write := fun name d => if t.refused name then pure false else shelf.write name d
    delete := fun name => if t.refused name then pure false else shelf.delete name }

instance : View World Refusing where
  storage := storage
  collection t name := pure { t with collection := name }

variable (j : Nat) (c : String) (refused : String → Bool) (w : World) (name : String)

theorem storage_answers : (storage ⟨j, c, refused⟩).Answers where
  list := (Transfer.shelf_answers j c).list
  readMany := (Transfer.shelf_answers j c).readMany
  write name d := .ite (.pure false) ((Transfer.shelf_answers j c).write name d)
  delete name := .ite (.pure false) ((Transfer.shelf_answers j c).delete name)
  collectionNames := (Transfer.shelf_answers j c).collectionNames

theorem write_eq (d : Document) : (storage ⟨j, c, refused⟩).write name d w =
    if refused name then .ok false w
    else .ok true (w.put j c ((w.documents j c).insert name d)) := by
  simp only [storage]
  split
  · rfl
  · exact Store.write_shelf j c w name d

theorem delete_eq : (storage ⟨j, c, refused⟩).delete name w =
    if refused name then .ok false w
    else .ok ((w.documents j c).contains name) (w.put j c ((w.documents j c).erase name)) := by
  simp only [storage]
  split
  · rfl
  · exact Store.delete_shelf j c w name

end Refusing

namespace Transfer

variable {i j : Nat} {c : String} {refused : String → Bool} {r r' s : Report} {u v w w' : World}
  {existing : Dict Document} {listed : List String}

/-! ## What is done about one document -/

/-- What a transfer does about a document, where source and target have these under its name. -/
def outcome (refused : Bool) (incoming existing : Option Document) : Option Action :=
  match incoming, existing with
  | some d, some current =>
    if current.same d then some .unchanged else if refused then none else some .updated
  | some _, none => if refused then none else some .created
  | none, some _ => if refused then none else some .deleted
  | none, none => none

/-- What a transfer leaves there. -/
def left (refused : Bool) (existing incoming : Option Document) : Option Document :=
  if refused then existing else settled existing incoming

section Outcomes

variable {no : Bool} {incoming existing : Option Document}

theorem outcome_eq_created : outcome no incoming existing = some .created ↔
    no = false ∧ incoming ≠ none ∧ existing = none := by
  cases incoming <;> cases existing <;> cases no <;> simp [outcome, ite_eq_iff]

theorem outcome_eq_updated : outcome no incoming existing = some .updated ↔
    no = false ∧ ∃ d e, incoming = some d ∧ existing = some e ∧ e.same d = false := by
  cases incoming <;> cases existing <;> cases no <;> simp [outcome]

theorem outcome_eq_deleted : outcome no incoming existing = some .deleted ↔
    no = false ∧ incoming = none ∧ existing ≠ none := by
  cases incoming <;> cases existing <;> cases no <;> simp [outcome, ite_eq_iff]

theorem outcome_eq_unchanged : outcome no incoming existing = some .unchanged ↔
    ∃ d e, incoming = some d ∧ existing = some e ∧ e.same d = true := by
  cases incoming <;> cases existing <;> cases no <;> simp [outcome]

/-- Where a transfer has been, the next one has nothing to do. -/
theorem outcome_left {k : Action} (h : outcome no incoming (left no existing incoming) = some k) :
    k = .unchanged := by
  cases no with
  | true =>
    rw [left, if_pos rfl] at h
    cases incoming <;> cases existing <;> simp_all [outcome]
  | false =>
    rw [left, if_neg Bool.false_ne_true] at h
    cases incoming with
    | none =>
      rw [settled_none] at h
      cases h
    | some d =>
      obtain ⟨e, he, hsame, -⟩ := settled_same existing d
      rw [he, outcome, if_pos hsame] at h
      cases h
      rfl

end Outcomes

/-! ## What is counted -/

/-- These things were done and counted, and nothing else was changed. -/
structure Tallies (ks : List (Option Action)) (r : Report) (u : World) (r' : Report) (v : World) :
    Prop where
  report : r' = ks.foldl Report.tally r
  idle : (∀ k, some k ∈ ks → k = .unchanged) → v = u

namespace Tallies

theorem nil (r : Report) (u : World) : Tallies [] r u r u := ⟨rfl, fun _ => rfl⟩

theorem append {ks ks' : List (Option Action)} (h : Tallies ks r u s v) (h' : Tallies ks' s v r' w) :
    Tallies (ks ++ ks') r u r' w where
  report := by rw [List.foldl_append, ← h.report, h'.report]
  idle hidle := by
    rw [h'.idle fun k hk => hidle k (List.mem_append_right ks hk),
      h.idle fun k hk => hidle k (List.mem_append_left ks' hk)]

/-- A loop counts what its steps count. Each step may rely on what the ones before it have kept for the
rest of the loop. -/
theorem foldlM {ε : Type} {f : Report → ε → Run World Report} {kinds : ε → List (Option Action)}
    {I : List ε → World → Prop}
    (step : ∀ e es r u r' v, I (e :: es) u → f r e u = .ok r' v → Tallies (kinds e) r u r' v ∧ I es v)
    {es : List ε} (hu : I es u) (h : es.foldlM f r u = .ok r' v) :
    Tallies (es.flatMap kinds) r u r' v := by
  induction es generalizing r u with
  | nil =>
    obtain ⟨rfl, rfl⟩ := EStateM.Result.ok.inj h
    exact .nil r u
  | cons e es ih =>
    obtain ⟨s, w, hstep, hrest⟩ := Run.foldlM_cons_eq_ok.mp h
    obtain ⟨htallies, hw⟩ := step e es r u s w hu hstep
    rw [List.flatMap_cons]
    exact htallies.append (ih hw hrest)

theorem count_eq {ks : List (Option Action)} (h : Tallies ks .zero u r v) (k : Action) :
    r.count k = ks.count (some k) := by
  rw [h.report, Report.count_foldl_tally, Report.count_zero, Nat.zero_add]

end Tallies

/-! ## One collection -/

/-- A change that is counted where it is not refused. -/
theorem tallies_of_bind_ite {x : Run World Bool} {no : Bool} {k : Action} (hk : k ≠ .unchanged)
    (hx : x u = if no then .ok false u else .ok true w)
    (h : (x >>= fun b => if b then pure (r.tally (some k)) else pure r) u = .ok r' v) :
    Tallies [if no then none else some k] r u r' v := by
  cases no with
  | true =>
    rw [Run.bind_ok hx] at h
    obtain ⟨rfl, rfl⟩ := EStateM.Result.ok.inj h
    exact ⟨rfl, fun _ => rfl⟩
  | false =>
    rw [Run.bind_ok hx] at h
    obtain ⟨rfl, rfl⟩ := EStateM.Result.ok.inj h
    exact ⟨rfl, fun hidle => absurd (hidle k (by simp)) hk⟩

theorem copy_tallies {e : String × Document}
    (h : copy (Refusing.storage ⟨j, c, refused⟩) existing r e u = .ok r' v) :
    Tallies [outcome (refused e.1) (some e.2) (existing.get? e.1)] r u r' v := by
  rw [copy] at h
  cases hex : existing.get? e.1 with
  | none =>
    rw [hex] at h
    exact tallies_of_bind_ite (k := .created) (by simp) (Refusing.write_eq j c refused u e.1 e.2) h
  | some current =>
    simp only [hex] at h
    rw [outcome]
    split at h
    · next hsame =>
      obtain ⟨rfl, rfl⟩ := EStateM.Result.ok.inj h
      rw [if_pos hsame]
      exact ⟨rfl, fun _ => rfl⟩
    · next hsame =>
      rw [if_neg hsame]
      exact tallies_of_bind_ite (k := .updated) (by simp) (Refusing.write_eq j c refused u e.1 e.2) h

/-- The first loop of a transfer counts the documents that the source has. -/
theorem copies_tallies {incoming : Dict Document}
    (h : incoming.entries.foldlM (copy (Refusing.storage ⟨j, c, refused⟩) existing) r u = .ok r' v) :
    Tallies (incoming.keys.map fun name =>
      outcome (refused name) (incoming.get? name) (existing.get? name)) r u r' v := by
  have hloop := Tallies.foldlM (I := fun _ _ => True)
    (fun e es r u r' v _ h => ⟨copy_tallies h, trivial⟩) trivial h
  have hkinds : (incoming.keys.map fun name =>
      outcome (refused name) (incoming.get? name) (existing.get? name)) =
      incoming.entries.flatMap fun e =>
        [outcome (refused e.1) (some e.2) (existing.get? e.1)] := by
    rw [← List.map_eq_flatMap, Dict.keys, List.map_map]
    apply List.map_congr_left
    intro e he
    have hget : incoming.get? e.1 = some e.2 := Dict.lookup_of_mem incoming.ascending he
    rw [Function.comp_apply, hget]
  rw [hkinds]
  exact hloop

/-- A document that is there is deleted unless it is listed, and the others stay. -/
theorem prune_tallies {name : String}
    (hname : listed.contains name = false →
      (u.documents j c).contains name = true)
    (h : prune (Refusing.storage ⟨j, c, refused⟩) listed r name u = .ok r' v) :
    Tallies (if listed.contains name then [] else [if refused name then none else some .deleted])
        r u r' v ∧
      ∀ other ≠ name, (v.documents j c).contains other =
        (u.documents j c).contains other := by
  rw [prune] at h
  cases hlisted : listed.contains name with
  | true =>
    rw [hlisted, if_pos rfl] at h
    obtain ⟨rfl, rfl⟩ := EStateM.Result.ok.inj h
    exact ⟨.nil r u, fun _ _ => rfl⟩
  | false =>
    have hdelete := Refusing.delete_eq j c refused u name
    rw [hname hlisted] at hdelete
    rw [hlisted, if_neg Bool.false_ne_true] at h
    refine ⟨tallies_of_bind_ite (by simp) hdelete h, ?_⟩
    intro other hne
    cases hno : refused name with
    | true =>
      rw [hno, if_pos rfl] at hdelete
      rw [Run.bind_ok hdelete] at h
      rw [← (EStateM.Result.ok.inj h).2]
    | false =>
      rw [hno, if_neg Bool.false_ne_true] at hdelete
      rw [Run.bind_ok hdelete] at h
      rw [← (EStateM.Result.ok.inj h).2, documents_put, if_pos ⟨rfl, rfl⟩, Dict.contains,
        Dict.get?_erase, if_neg (Ne.symm hne), Dict.contains]

theorem flatMap_ite {α β : Type} (p : α → Bool) (f : α → β) (as : List α) :
    as.flatMap (fun a => if p a then [] else [f a]) = (as.filter (! p ·)).map f := by
  induction as with
  | nil => rfl
  | cons a as ih =>
    rw [List.flatMap_cons, ih]
    cases hp : p a <;> simp [hp]

/-- The second loop counts the documents that are not listed, where these are there. -/
theorem prunes_tallies {names : List String} (hnames : names.Nodup)
    (hin : ∀ name ∈ names, listed.contains name = false →
      (u.documents j c).contains name = true)
    (h : names.foldlM (prune (Refusing.storage ⟨j, c, refused⟩) listed) r u = .ok r' v) :
    Tallies ((names.filter (! listed.contains ·)).map fun name =>
      if refused name then none else some .deleted) r u r' v := by
  rw [← flatMap_ite]
  -- No name is visited twice, so what is still to be deleted is there.
  refine Tallies.foldlM (I := fun names u => names.Nodup ∧ ∀ name ∈ names,
    listed.contains name = false → (u.documents j c).contains name = true)
    ?_ ⟨hnames, hin⟩ h
  rintro name names r u r' v ⟨hnodup, hin⟩ h
  obtain ⟨hnot, hnodup⟩ := List.nodup_cons.mp hnodup
  obtain ⟨htallies, hothers⟩ := prune_tallies (hin name List.mem_cons_self) h
  refine ⟨htallies, hnodup, fun other hother hlisted => ?_⟩
  have hne : other ≠ name := fun heq => hnot (heq ▸ hother)
  rw [hothers other hne]
  exact hin other (List.mem_cons_of_mem name hother) hlisted

/-- The names that a transfer of one collection visits, each once: those that the source has, and then
those that only the target has. -/
def visited (incoming existing : Dict Document) : List String :=
  incoming.keys ++ existing.keys.filter (! incoming.contains ·)

theorem nodup_visited (incoming existing : Dict Document) : (visited incoming existing).Nodup := by
  apply List.Nodup.append (incoming.pairwise_keys.imp String.ne_of_lt)
  · exact (existing.pairwise_keys.imp String.ne_of_lt).filter _
  · intro name hin hex
    have hnot := (List.mem_filter.mp hex).2
    rw [Dict.mem_keys.mp hin] at hnot
    cases hnot

theorem mem_visited {incoming existing : Dict Document} {no : Bool} {name : String}
    (h : outcome no (incoming.get? name) (existing.get? name) ≠ none) :
    name ∈ visited incoming existing := by
  rw [visited, List.mem_append, List.mem_filter, Dict.mem_keys, Dict.mem_keys, Dict.contains,
    Dict.contains]
  cases hin : incoming.get? name with
  | some d => exact .inl rfl
  | none =>
    cases hex : existing.get? name with
    | some e => exact .inr ⟨rfl, rfl⟩
    | none =>
      rw [hin, hex] at h
      exact absurd rfl h

theorem readsAs_refusing (j : Nat) (c : String) (refused : String → Bool) :
    ReadsAs (Refusing.storage ⟨j, c, refused⟩) j c := ⟨rfl, rfl⟩

theorem changes_refusing (j : Nat) (c : String) (refused : String → Bool) (w : World) :
    Changes (Refusing.storage ⟨j, c, refused⟩) j c w
    (fun name d o => if refused name then o else some d)
    (fun name o => if refused name then o else none) where
  write name d u b v _ h := by
    rw [Refusing.write_eq] at h
    split at h
    · next hno =>
      rw [← (EStateM.Result.ok.inj h).2, if_pos hno]
      exact .refl _ _ name u
    · next hno =>
      rw [← (EStateM.Result.ok.inj h).2, if_neg hno]
      exact .insert u _ _ name d
  delete name u b v _ h := by
    rw [Refusing.delete_eq] at h
    split at h
    · next hno =>
      rw [← (EStateM.Result.ok.inj h).2, if_pos hno]
      exact .refl _ _ name u
    · next hno =>
      rw [← (EStateM.Result.ok.inj h).2, if_neg hno]
      exact .erase u _ _ name

/-- What is left of each document. -/
theorem reconcile_left
    (h : reconcile (Store.shelf i c).storage (Refusing.storage ⟨j, c, refused⟩) r w = .ok r' w') :
    OnlyAt j c w w' ∧ ∀ name, (w'.documents j c).get? name =
      left (refused name) ((w.documents j c).get? name) ((w.documents i c).get? name) := by
  obtain ⟨honly, hall⟩ := reconcile_documents (changes_refusing j c refused w)
    (reads_shelves (readsAs_shelf i c) (readsAs_refusing j c refused) w) h
  refine ⟨honly, fun name => ?_⟩
  rw [hall name, contains_listed_shelf, pruned, left, Dict.contains, Dict.contains]
  cases (w.documents i c).get? name <;> cases (w.documents j c).get? name <;>
    cases refused name <;> simp [copied, settled]

/-- Each document of a collection is counted once. -/
theorem reconcile_tallies
    (h : reconcile (Store.shelf i c).storage (Refusing.storage ⟨j, c, refused⟩) r w = .ok r' w') :
    Tallies ((visited (w.documents i c) (w.documents j c)).map fun name =>
      outcome (refused name) ((w.documents i c).get? name)
        ((w.documents j c).get? name)) r w r' w' := by
  obtain ⟨s, v, hcopy, hprune⟩ :=
    reconcile_loops (reads_shelves (readsAs_shelf i c) (readsAs_refusing j c refused) w) h
  obtain ⟨-, -, hout⟩ := foldlM_sets (·.1)
    (fun e _ b u b' v hu h => copy_sets (changes_refusing j c refused w) hu h)
    (w.documents i c).distinct_entries (.refl _ _ w) hcopy
  -- The first loop leaves the documents alone that the second one is about.
  have hkept : ∀ name, (w.documents i c).contains name = false →
      (v.documents j c).get? name =
        (w.documents j c).get? name := by
    intro name hname
    rw [Dict.contains, Option.isSome_eq_false_iff, Option.isNone_iff_eq_none] at hname
    exact hout name (Dict.lookup_eq_none.mp hname)
  have hprunes := prunes_tallies ((Dict.pairwise_keys _).imp String.ne_of_lt) (by
    intro name hname hlisted
    rw [contains_listed_shelf] at hlisted
    rw [Dict.contains, hkept name hlisted]
    exact Dict.mem_keys.mp hname) hprune
  have hkinds : (((w.documents j c).keys.filter fun name =>
      ! ((w.documents i c).keys.filter (·.startsWith "")).contains name).map fun name =>
        if refused name then none else some Action.deleted) =
      ((w.documents j c).keys.filter fun name =>
        ! (w.documents i c).contains name).map fun name =>
          outcome (refused name) ((w.documents i c).get? name)
            ((w.documents j c).get? name) := by
    simp only [contains_listed_shelf]
    apply List.map_congr_left
    intro name hname
    obtain ⟨hin, hnot⟩ := List.mem_filter.mp hname
    rw [Bool.not_eq_true', Dict.contains, Option.isSome_eq_false_iff, Option.isNone_iff_eq_none] at hnot
    obtain ⟨e, he⟩ := Option.isSome_iff_exists.mp (Dict.mem_keys.mp hin)
    rw [hnot, he, outcome]
  rw [hkinds] at hprunes
  rw [visited, List.map_append]
  exact (copies_tallies hcopy).append hprunes

/-! ## All collections -/

theorem opens_refusing (j : Nat) (refused : String → Bool) :
    View.Opens (⟨j, Name.defaultCollection, refused⟩ : Refusing)
      fun c => Refusing.storage ⟨j, c, refused⟩ where
  storage := rfl
  collection _ _ := ⟨_, rfl, rfl⟩

theorem collectionNames_refusing (j : Nat) (c : String) (refused : String → Bool) (w : World) :
    (View.storage (⟨j, c, refused⟩ : Refusing)).collectionNames w = .ok (w.shelves.get j).named w :=
  Store.collectionNames_shelf j c w

/-- What is left of the documents of each collection. -/
theorem run_left
    (h : run (Store.shelf i Name.defaultCollection) (⟨j, Name.defaultCollection, refused⟩ : Refusing) w =
      .ok r w') :
    OnlyOn j w w' ∧ ∀ c name, (w'.documents j c).get? name =
      left (refused name) ((w.documents j c).get? name) ((w.documents i c).get? name) := by
  refine run_documents (Store.opens_shelf i) (opens_refusing j refused)
    (Store.collectionNames_shelf i _) (collectionNames_refusing j _ refused)
    (fun name => left (refused name)) ?_ (fun _ _ _ _ _ => reconcile_left) h
  intro name
  cases refused name <;> rfl

/-- The collections that a transfer goes through, each once. The others have no documents. -/
theorem run_visits
    (h : run (Store.shelf i Name.defaultCollection) (⟨j, Name.defaultCollection, refused⟩ : Refusing) w =
      .ok r w') :
    ∃ cs : List String, cs.Nodup ∧ (∀ c ∉ cs, w.documents i c = ∅ ∧ w.documents j c = ∅) ∧
      cs.foldlM (reconcileCollection (Store.shelf i Name.defaultCollection)
        (⟨j, Name.defaultCollection, refused⟩ : Refusing)) .zero w = .ok r w' := by
  obtain ⟨s, v, xs, ys, hfirst, hxs, hys, hnodup, hloop⟩ :=
    run_loop (Store.opens_shelf i) (opens_refusing j refused)
      (fun w => ⟨_, _, Store.collectionNames_shelf i _ w, collectionNames_refusing j _ refused w⟩) h
  obtain ⟨rfl, -⟩ := Run.ok_unique (Store.collectionNames_shelf i Name.defaultCollection v) hxs
  obtain ⟨rfl, -⟩ := Run.ok_unique (Store.collectionNames_shelf j Name.defaultCollection v) hys
  refine ⟨_, hnodup, ?_, hloop⟩
  intro c hc
  rw [List.mem_cons, not_or, mem_named, not_and_not_right] at hc
  obtain ⟨hdefault, hnot⟩ := hc
  -- The default collection went first, and the others are as at the start.
  have honly : OnlyAt j Name.defaultCollection w v := (reconcile_left hfirst).1
  rw [← honly.documents_of_collection_ne hdefault i, ← honly.documents_of_collection_ne hdefault j]
  constructor
  · exact documents_of_not_mem_named hdefault fun hi => hdefault (hnot (.inl hi))
  · exact documents_of_not_mem_named hdefault fun hj => hdefault (hnot (.inr hj))

/-- What a transfer does about a document, by its collection and name. -/
def done (i j : Nat) (refused : String → Bool) (w : World) (p : String × String) : Option Action :=
  outcome (refused p.2) ((w.documents i p.1).get? p.2) ((w.documents j p.1).get? p.2)

/-- Each document is counted once, whatever its collection. -/
theorem run_tallies
    (h : run (Store.shelf i Name.defaultCollection) (⟨j, Name.defaultCollection, refused⟩ : Refusing) w =
      .ok r w') :
    ∃ ps : List (String × String), ps.Nodup ∧ (∀ p, done i j refused w p ≠ none → p ∈ ps) ∧
      Tallies (ps.map (done i j refused w)) .zero w r w' := by
  obtain ⟨cs, hnodup, houtside, hloop⟩ := run_visits h
  refine ⟨cs.flatMap fun c => (visited (w.documents i c) (w.documents j c)).map (c, ·), ?_, ?_, ?_⟩
  · apply List.nodup_flatMap.mpr
    constructor
    · intro c _
      exact (nodup_visited _ _).map (Prod.mk_right_injective c)
    · apply hnodup.imp
      intro c d hcd p hc hd
      obtain ⟨name, -, rfl⟩ := List.mem_map.mp hc
      obtain ⟨other, -, heq⟩ := List.mem_map.mp hd
      exact hcd (congrArg Prod.fst heq).symm
  · rintro ⟨c, name⟩ hdone
    rw [List.mem_flatMap]
    by_cases hc : c ∈ cs
    · exact ⟨c, hc, List.mem_map.mpr ⟨name, mem_visited hdone, rfl⟩⟩
    · obtain ⟨hi, hj⟩ := houtside c hc
      rw [done, hi, hj] at hdone
      exact absurd rfl hdone
  · rw [List.map_flatMap]
    simp only [List.map_map]
    -- A collection is as at the start until it is its turn.
    refine Tallies.foldlM (I := fun cs u => cs.Nodup ∧ ∀ c ∈ cs, ∀ k, u.documents k c = w.documents k c)
      ?_ ⟨hnodup, fun _ _ _ => rfl⟩ hloop
    rintro c cs r u r' v ⟨hnodup, hsame⟩ h
    obtain ⟨hnot, hnodup⟩ := List.nodup_cons.mp hnodup
    rw [reconcileCollection_eq (Store.opens_shelf i) (opens_refusing j refused)] at h
    have htallies := reconcile_tallies h
    rw [hsame c List.mem_cons_self i, hsame c List.mem_cons_self j] at htallies
    refine ⟨htallies, hnodup, fun d hd k => ?_⟩
    have hdc : d ≠ c := fun heq => hnot (heq ▸ hd)
    rw [(reconcile_left h).1.documents_of_collection_ne hdc k]
    exact hsame d (List.mem_cons_of_mem c hd) k

theorem encard_eq_count {α β : Type} [DecidableEq α] [DecidableEq β] {f : α → Option β} {as : List α}
    (has : as.Nodup) (hall : ∀ a, f a ≠ none → a ∈ as) (b : β) :
    {a | f a = some b}.encard = (as.map f).count (some b) := by
  have hset : {a | f a = some b} = ((as.filter fun a => f a = some b).toFinset : Set α) := by
    ext a
    rw [Set.mem_ofPred_eq, List.coe_toFinset, Set.mem_ofPred_eq, List.mem_filter, decide_eq_true_iff]
    constructor
    · intro ha
      exact ⟨hall a (by simp [ha]), ha⟩
    · intro ha
      exact ha.2
  have hcount : (as.map f).count (some b) = (as.filter fun a => f a = some b).length := by
    rw [List.count, List.countP_map, List.countP_eq_length_filter]
    congr 2
    funext a
    exact beq_eq_decide (f a) (some b)
  rw [hset, Set.encard_coe_eq_coe_finsetCard, List.toFinset_card_of_nodup (has.filter _), hcount]

/-- A report has the numbers of documents about which something was done. -/
theorem run_count
    (h : run (Store.shelf i Name.defaultCollection) (⟨j, Name.defaultCollection, refused⟩ : Refusing) w =
      .ok r w') (k : Action) : {p | done i j refused w p = some k}.encard = r.count k := by
  obtain ⟨ps, hnodup, hall, htallies⟩ := run_tallies h
  rw [encard_eq_count hnodup hall, htallies.count_eq]

theorem run_refusing_answers (i j : Nat) (refused : String → Bool) : Run.Answers
    (run (Store.shelf i Name.defaultCollection)
      (⟨j, Name.defaultCollection, refused⟩ : Refusing)) :=
  run_answers (Store.opens_shelf i) (opens_refusing j refused) (shelf_answers i) fun c =>
    Refusing.storage_answers j c refused

/-- Where a transfer has been, the next one changes nothing, and says so. -/
theorem run_again_refusing (hne : i ≠ j)
    (h : run (Store.shelf i Name.defaultCollection) (⟨j, Name.defaultCollection, refused⟩ : Refusing) w =
      .ok r w') :
    ∃ r', run (Store.shelf i Name.defaultCollection)
        (⟨j, Name.defaultCollection, refused⟩ : Refusing) w' = .ok r' w' ∧
      r'.created = 0 ∧ r'.updated = 0 ∧ r'.deleted = 0 := by
  obtain ⟨r', w₂, h'⟩ := run_refusing_answers i j refused w'
  obtain ⟨honly, hleft⟩ := run_left h
  have hdone : ∀ p k, done i j refused w' p = some k → k = .unchanged := by
    intro p k hk
    rw [done, hleft, honly.documents_of_ne hne] at hk
    exact outcome_left hk
  obtain ⟨ps, -, -, htallies⟩ := run_tallies h'
  have hidle : ∀ k, some k ∈ ps.map (done i j refused w') → k = .unchanged := by
    intro k hk
    obtain ⟨p, -, hp⟩ := List.mem_map.mp hk
    exact hdone p k hp
  have hzero : ∀ k ≠ .unchanged, r'.count k = 0 := by
    intro k hk
    rw [htallies.count_eq, List.count_eq_zero]
    intro hmem
    exact hk (hidle k hmem)
  rw [htallies.idle hidle] at h'
  exact ⟨r', h', hzero .created nofun, hzero .updated nofun, hzero .deleted nofun⟩

/-- A transfer answers, and changes nothing but the target. There, what is refused stays, and everything
else becomes what the source has. The report has the numbers of documents that only the source has, that
both have and that differ, and that only the target had, all without those that are refused, and of the
documents that were the same in both. A second transfer changes nothing, and says so. -/
theorem import_reports (hne : i ≠ j) (refused : String → Bool) (w : World) :
    let target : Refusing := ⟨j, Name.defaultCollection, refused⟩
    let theirs := fun p : String × String => (w.documents i p.1).get? p.2
    let before := fun p : String × String => (w.documents j p.1).get? p.2
    ∃ r w', run (Store.shelf i Name.defaultCollection) target w = .ok r w' ∧ OnlyOn j w w' ∧
      (∀ p : String × String,
        if refused p.2 then (w'.documents j p.1).get? p.2 = before p
        else match theirs p with
          | none => (w'.documents j p.1).get? p.2 = none
          | some d => ∃ e, (w'.documents j p.1).get? p.2 = some e ∧ e.same d = true) ∧
      {p | refused p.2 = false ∧ theirs p ≠ none ∧ before p = none}.encard = r.created ∧
      {p | refused p.2 = false ∧ ∃ d e, theirs p = some d ∧ before p = some e ∧
        e.same d = false}.encard = r.updated ∧
      {p | refused p.2 = false ∧ theirs p = none ∧ before p ≠ none}.encard = r.deleted ∧
      {p | ∃ d e, theirs p = some d ∧ before p = some e ∧ e.same d = true}.encard = r.unchanged ∧
      ∃ r', run (Store.shelf i Name.defaultCollection) target w' = .ok r' w' ∧
        r'.created = 0 ∧ r'.updated = 0 ∧ r'.deleted = 0 := by
  intro target theirs before
  obtain ⟨r, w', h⟩ := run_refusing_answers i j refused w
  obtain ⟨honly, hleft⟩ := run_left h
  refine ⟨r, w', h, honly, ?_, ?_, ?_, ?_, ?_, run_again_refusing hne h⟩
  · intro p
    rw [hleft, left]
    split
    · rfl
    · show match (w.documents i p.1).get? p.2 with
        | none => _
        | some d => _
      cases (w.documents i p.1).get? p.2 with
      | none => exact settled_none _
      | some d =>
        obtain ⟨e, he, hsame, -⟩ := settled_same ((w.documents j p.1).get? p.2) d
        exact ⟨e, he, hsame⟩
  · have hcount := run_count h .created
    simp only [done, outcome_eq_created] at hcount
    exact hcount
  · have hcount := run_count h .updated
    simp only [done, outcome_eq_updated] at hcount
    exact hcount
  · have hcount := run_count h .deleted
    simp only [done, outcome_eq_deleted] at hcount
    exact hcount
  · have hcount := run_count h .unchanged
    simp only [done, outcome_eq_unchanged] at hcount
    exact hcount

/-- A site in two languages, to be transferred to one that refuses to change the name of the site. -/
def bilingualWorld : World :=
  .ofShelves
    (.put
      (.ofDocuments (.ofList [
        ("system.mail", .ofList [("interface", .string "smtp")]),
        ("system.site", .ofList [("name", .string "New")]),
        ("user.settings", .ofList [("role", .string "guest")])]))
      "language.de" (.ofList [
        ("system.site", .ofList [("name", .string "Neu")]),
        ("user.settings", .ofList [("role", .string "Gast")])]))
    (.ofDocuments (.ofList [
      ("node.settings", .ofList [("preview", .string "1")]),
      ("system.site", .ofList [("name", .string "Old")]),
      ("user.settings", .ofList [("role", .string "editor")])]))

theorem import_reports_bilingual :
    let target : Refusing := ⟨1, Name.defaultCollection, (· == "system.site")⟩
    0 ≠ 1 ∧ ∃ r w', run (Store.shelf 0 Name.defaultCollection) target bilingualWorld = .ok r w' ∧
      w'.documents 0 "language.de" = bilingualWorld.documents 0 "language.de" ∧
      (w'.documents 1 "").get? "system.site" = some (.ofList [("name", .string "Old")]) ∧
      (w'.documents 1 "").get? "node.settings" = none ∧
      (w'.documents 1 "language.de").get? "system.site" = none ∧
      (r.created, r.updated, r.deleted, r.unchanged) = (2, 1, 1, 0) ∧
      ∃ r', run (Store.shelf 0 Name.defaultCollection) target w' = .ok r' w' ∧
        r'.created = 0 ∧ r'.updated = 0 ∧ r'.deleted = 0 := by
  intro target
  have hne : 0 ≠ 1 := by decide
  obtain ⟨r, w', h, honly, hdocuments, -, -, -, -, hagain⟩ :=
    import_reports hne (· == "system.site") bilingualWorld
  have hreport : Run.answers
      (fun r _ => decide ((r.created, r.updated, r.deleted, r.unchanged) = (2, 1, 1, 0)))
      (run (Store.shelf 0 Name.defaultCollection) target bilingualWorld) = true := by decide +kernel
  rw [h] at hreport
  have hreport := of_decide_eq_true hreport
  exact ⟨hne, r, w', h, honly.documents_of_ne hne "language.de", hdocuments ("", "system.site"),
    hdocuments ("", "node.settings"), hdocuments ("language.de", "system.site"), hreport, hagain⟩

end Transfer

end LayeredConfig
