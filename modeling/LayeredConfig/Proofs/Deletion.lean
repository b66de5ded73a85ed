import LayeredConfig.Proofs.World
/-!
# What survives a deletion

A shelf behind any number of ignore filters keeps what one of them ignores. Documents are deleted at
once only if all filters agree to that, each of which looks at the shelf and at its own active one, and
else one by one, where each filter is asked about the name. Both ways leave the same documents
(`Screen.deleteAll_survivors`).
-/

namespace LayeredConfig

open World

/-- An ignore filter that takes from a collection of a shelf. -/
structure Screen where
  patterns : Ignore.Patterns
  deactivated : Bool
  shelf : Nat
  collection : String

namespace Screen

variable (x : Screen) (screens : List Screen) (i : Nat) (c : String) (w : World)

/-- The filter of a store. -/
def filter : Filter := .ignore x.patterns x.deactivated (.shelf x.shelf x.collection)

/-- What the filter works with. -/
def context : Ignore.Context World :=
  ⟨x.patterns, x.deactivated, (Store.shelf x.shelf x.collection).storage⟩

/-- Whether documents of a name are ignored. -/
def ignores (name : String) : Bool := !x.deactivated && x.patterns.ignores name

/-- The hooks around a collection of a shelf. -/
def hooks : Hooks World := x.context.hooks (some (Store.shelf i c).storage.readOnly)

/-- The operations on a collection of a shelf behind some filters. -/
def storage : Storage World := Pipeline.storage (Store.shelf i c).storage (screens.map (·.hooks i c))

theorem storage_layered (mark : Option Nat) :
    View.storage (Store.layered mark (.shelf i c) (screens.map filter)) = storage screens i c := by
  show (Store.layered mark (.shelf i c) (screens.map filter)).storage = _
  rw [Store.storage, Filter.chain_eq_map, List.map_map, storage]
  rfl

/-! ## One by one -/

theorem permitsDelete_eq (name : String) :
    Pipeline.permitsDelete (screens.map (·.hooks i c)) name w =
      .ok (!screens.any (·.ignores name)) w := by
  rw [Pipeline.permitsDelete, List.foldlM_map, List.not_any_eq_all_not]
  exact Run.foldlM_and (p := fun x => !x.ignores name) (fun _ _ => rfl) screens true

/-- A document is deleted unless a filter ignores it, and no other one is touched. -/
theorem delete_sets (name : String) :
    ∃ b v, (storage screens i c).delete name w = .ok b v ∧
      Sets i c name
        (if screens.any (·.ignores name) then (w.documents i c).get? name else none) w v := by
  have hdelete : (storage screens i c).delete name w =
      (if !screens.any (·.ignores name) then (Store.shelf i c).storage.delete name
        else pure false : Run World Bool) w :=
    Run.bind_ok (permitsDelete_eq screens i c w name) _
  rw [hdelete]
  cases screens.any (·.ignores name) with
  | true => exact ⟨_, _, rfl, .refl i c name w⟩
  | false => exact ⟨_, _, Store.delete_shelf i c w name, .erase w i c name⟩

/-- Deleting one by one deletes what no filter ignores. -/
theorem delete_each (names : List String) :
    ∃ v, (names.forM fun name => do discard ((storage screens i c).delete name) : Run World Unit) w =
        .ok () v ∧ OnlyAt i c w v ∧
      ∀ name, (v.documents i c).get? name =
        if name ∈ names ∧ screens.any (·.ignores name) = false then none
        else (w.documents i c).get? name := by
  induction names generalizing w with
  | nil => exact ⟨w, rfl, .refl i c w, by simp⟩
  | cons name names ih =>
    obtain ⟨b, u, hdelete, hset⟩ := delete_sets screens i c w name
    obtain ⟨v, hrun, honly, hv⟩ := ih u
    refine ⟨v, ?_, hset.only.trans honly, fun other => ?_⟩
    · exact (Run.bind_ok (Run.map_ok hdelete) _).trans hrun
    · rw [hv other]
      by_cases hne : other = name
      · subst hne
        rw [hset.here]
        cases screens.any (·.ignores other) <;> simp
      · rw [hset.others other hne]
        simp [hne]

/-! ## At once -/

/-- Whether nothing that is ignored is among the names that start with a text, in a map of documents and
in the active collection. -/
def spares (start : String) (base : Dict Document) : Bool :=
  !(base.keys.filter (·.startsWith start)).any x.ignores &&
    !((w.documents x.shelf x.collection).keys.filter (·.startsWith start)).any x.ignores

theorem sparesAll_eq (start : String) :
    x.context.sparesAll (some (Store.shelf i c).storage.readOnly) start w =
      .ok (x.spares w start (w.documents i c)) w := by
  refine (Run.bind_ok (Store.list_shelf i c w start) _).trans ?_
  have hignores : x.context.ignores = x.ignores := rfl
  rw [hignores, spares]
  cases ((w.documents i c).keys.filter (·.startsWith start)).any x.ignores with
  | true => rfl
  | false => exact Run.bind_ok (Store.list_shelf x.shelf x.collection w start) _

/-- Documents are deleted at once if each filter finds that this spares all that it ignores, and else
one by one. -/
theorem deleteAll_eq (start : String) :
    (storage screens i c).deleteAll start w =
      if screens.all (·.spares w start (w.documents i c)) then
        .ok true (w.put i c ((w.documents i c).filterKeys (! ·.startsWith start)))
      else (do
        ((w.documents i c).keys.filter (·.startsWith start)).forM fun name => do
          discard ((storage screens i c).delete name)
        pure true : Run World Bool) w := by
  have hpermits : ((screens.map (·.hooks i c)).foldlM (fun b h => h.deleteAll start b) true :
      Run World Bool) w = .ok (screens.all (·.spares w start (w.documents i c))) w := by
    rw [List.foldlM_map]
    refine Run.foldlM_and (fun b x => ?_) screens true
    cases b with
    | false => rfl
    | true => exact x.sparesAll_eq i c w start
  refine (Run.bind_ok hpermits _).trans ?_
  split
  · exact Store.deleteAll_shelf i c w start
  · exact Run.bind_ok (Store.list_shelf i c w start) _

theorem get?_eq_none_of_spares {start name : String} {base : Dict Document}
    (h : x.spares w start base = true) (hname : name.startsWith start = true)
    (hig : x.ignores name = true) : base.get? name = none := by
  rw [spares, Bool.and_eq_true, Bool.not_eq_true', List.any_eq_false] at h
  by_contra hne
  refine h.1 name (List.mem_filter.mpr ⟨Dict.mem_keys.mpr ?_, hname⟩) hig
  exact Dict.contains_iff.mpr hne

/-! ## Survivors -/

/-- The documents that are left: those whose names do not start with the text, and those that a filter
ignores. -/
def survivors (start : String) (ds : Dict Document) : Dict Document :=
  ds.filterKeys fun name => !name.startsWith start || screens.any (·.ignores name)

variable {screens w} in
/-- Where all filters agree to delete at once, nothing that one of them ignores is lost. -/
theorem filterKeys_of_spares {start : String} {ds : Dict Document}
    (h : screens.all (·.spares w start ds) = true) :
    ds.filterKeys (! ·.startsWith start) = survivors screens start ds := by
  refine Dict.ext fun name => ?_
  rw [survivors, Dict.get?_filterKeys, Dict.get?_filterKeys]
  cases hname : name.startsWith start with
  | false => simp
  | true =>
    cases hig : screens.any (·.ignores name) with
    | false => simp
    | true =>
      obtain ⟨x, hx, hignores⟩ := List.any_eq_true.mp hig
      simp [x.get?_eq_none_of_spares w (List.all_eq_true.mp h x hx) hname hignores]

/-- Deleting all listed documents one by one leaves the survivors. -/
theorem delete_listed (start : String) :
    ∃ v, (((w.documents i c).keys.filter (·.startsWith start)).forM fun name => do
          discard ((storage screens i c).delete name) : Run World Unit) w = .ok () v ∧
      OnlyAt i c w v ∧ v.documents i c = survivors screens start (w.documents i c) := by
  obtain ⟨v, hrun, honly, hv⟩ :=
    delete_each screens i c w ((w.documents i c).keys.filter (·.startsWith start))
  refine ⟨v, hrun, honly, Dict.ext fun name => ?_⟩
  rw [hv, survivors, Dict.get?_filterKeys]
  cases hd : (w.documents i c).get? name with
  | none => simp
  | some d =>
    have hlisted : name ∈ (w.documents i c).keys.filter (·.startsWith start) ↔
        name.startsWith start = true := by
      rw [List.mem_filter, Dict.mem_keys, Dict.contains_iff, hd]
      simp
    simp only [hlisted]
    cases name.startsWith start <;> cases screens.any (·.ignores name) <;> simp

theorem deleteAll_documents (start : String) :
    ∃ v, (storage screens i c).deleteAll start w = .ok true v ∧ OnlyAt i c w v ∧
      v.documents i c = survivors screens start (w.documents i c) := by
  rw [deleteAll_eq]
  split
  · next hspares =>
    refine ⟨_, rfl, .put .., ?_⟩
    rw [documents_put, if_pos ⟨rfl, rfl⟩, filterKeys_of_spares hspares]
  · obtain ⟨v, hrun, honly, hv⟩ := delete_listed screens i c w start
    exact ⟨v, Run.bind_ok hrun _, honly, hv⟩

/-- What is left of a shelf when all documents whose names start with a text are deleted through any
filters, whatever shelves these take from: the other documents, and those that one of the filters
ignores. No other collection and no other shelf is changed. It is the same whether the documents are
deleted at once or each by itself. -/
theorem deleteAll_survivors (mark : Option Nat) (start : String) :
    let store := View.storage (Store.layered mark (.shelf i c) (screens.map filter))
    let listed := (w.documents i c).keys.filter (·.startsWith start)
    ∃ u v, store.deleteAll start w = .ok true u ∧
      (listed.forM fun name => discard (store.delete name) : Run World Unit) w = .ok () v ∧
      OnlyAt i c w u ∧ OnlyAt i c w v ∧
      u.documents i c = (w.documents i c).filterKeys (fun name =>
        !name.startsWith start || screens.any (·.ignores name)) ∧
      v.documents i c = u.documents i c := by
  intro store listed
  have hstore : store = storage screens i c := storage_layered screens i c mark
  obtain ⟨u, hu, huonly, hudocuments⟩ := deleteAll_documents screens i c w start
  obtain ⟨v, hv, hvonly, hvdocuments⟩ := delete_listed screens i c w start
  rw [hstore]
  exact ⟨u, v, hu, hv, huonly, hvonly, hudocuments, hvdocuments.trans hudocuments.symm⟩

end Screen

end LayeredConfig
