import LayeredConfig.Proofs.Dialogue
import LayeredConfig.Store
/-!
# Collections of collections

A collection may be opened from another one. Of shelves, in views for reading only and in ignore filters
that take from such stores, it makes no difference from which: a store moves to a collection as a whole,
with all that its filters take from, and nothing of the collection where it was remains
(`Store.moved_moved`). So what is opened on the way is not seen in any dialogue afterwards
(`Store.transcript_moved`). Other stores do not move so freely. A directory has no collections but of
valid names, a journal keeps what was opened, and a stock filter may stay out of a collection and is
gone from there on.
-/

namespace LayeredConfig

/-! ## Stores that move -/

mutual

/-- Whether a store is made of shelves, of views for reading only and of ignore filters that take from
such stores. -/
def Store.movable : Store → Bool
  | .shelf .. => true
  | .readOnly s => s.movable
  | .layered _ base filters => base.movable && Filter.allMovable filters
  | .directory .. | .journaled .. => false

/-- Whether a filter is an ignore filter that takes from a movable store. -/
def Filter.movable : Filter → Bool
  | .ignore _ _ active => active.movable
  | .stock _ => false

/-- Whether all filters are movable. -/
def Filter.allMovable : List Filter → Bool
  | [] => true
  | f :: rest => f.movable && Filter.allMovable rest

end

mutual

/-- A store as it is seen from another collection. -/
def Store.moved (c : String) : Store → Store
  | .shelf i _ => .shelf i c
  | .directory root _ => .directory root c
  | .readOnly s => .readOnly (s.moved c)
  | .journaled i s => .journaled i (s.moved c)
  | .layered _ base filters => .layered none (base.moved c) (Filter.allMoved c filters)

/-- A filter that takes from another collection. -/
def Filter.moved (c : String) : Filter → Filter
  | .ignore patterns deactivated active => .ignore patterns deactivated (active.moved c)
  | .stock f => .stock f

/-- Filters that take from another collection. -/
def Filter.allMoved (c : String) : List Filter → List Filter
  | [] => []
  | f :: rest => f.moved c :: Filter.allMoved c rest

end

/-! ## Moving twice -/

mutual

/-- Only the last move counts. -/
theorem Store.moved_moved (a b : String) : ∀ s : Store, (s.moved a).moved b = s.moved b
  | .shelf .. | .directory .. => by simp only [Store.moved]
  | .readOnly s | .journaled _ s => by simp only [Store.moved, Store.moved_moved a b s]
  | .layered _ base filters => by
    simp only [Store.moved, Store.moved_moved a b base, Filter.allMoved_allMoved a b filters]

theorem Filter.moved_moved (a b : String) : ∀ f : Filter, (f.moved a).moved b = f.moved b
  | .ignore _ _ active => by simp only [Filter.moved, Store.moved_moved a b active]
  | .stock _ => by simp only [Filter.moved]

theorem Filter.allMoved_allMoved (a b : String) :
    ∀ fs : List Filter, Filter.allMoved b (Filter.allMoved a fs) = Filter.allMoved b fs
  | [] => by simp only [Filter.allMoved]
  | f :: rest => by
    simp only [Filter.allMoved, Filter.moved_moved a b f, Filter.allMoved_allMoved a b rest]

end

mutual

theorem Store.movable_moved (c : String) : ∀ s : Store, (s.moved c).movable = s.movable
  | .shelf .. | .directory .. | .journaled .. => by simp only [Store.moved, Store.movable]
  | .readOnly s => by simp only [Store.moved, Store.movable, Store.movable_moved c s]
  | .layered _ base filters => by
    simp only [Store.moved, Store.movable, Store.movable_moved c base, Filter.allMovable_moved c filters]

theorem Filter.movable_moved (c : String) : ∀ f : Filter, (f.moved c).movable = f.movable
  | .ignore _ _ active => by simp only [Filter.moved, Filter.movable, Store.movable_moved c active]
  | .stock _ => by simp only [Filter.moved]

theorem Filter.allMovable_moved (c : String) :
    ∀ fs : List Filter, Filter.allMovable (Filter.allMoved c fs) = Filter.allMovable fs
  | [] => by simp only [Filter.allMoved]
  | f :: rest => by
    simp only [Filter.allMoved, Filter.allMovable, Filter.movable_moved c f,
      Filter.allMovable_moved c rest]

end

/-! ## Opening a collection -/

mutual

/-- Opening a collection moves the store, and does nothing else. -/
theorem Store.collection_of_movable (c : String) :
    ∀ {s : Store}, s.movable = true → s.collection c = pure (s.moved c)
  | .shelf .., _ => by rw [Store.collection, Store.moved]
  | .readOnly s, h => by
    rw [Store.movable] at h
    rw [Store.collection, Store.moved, Store.collection_of_movable c h, map_pure]
  | .layered _ base filters, h => by
    rw [Store.movable, Bool.and_eq_true] at h
    rw [Store.collection, Store.moved, Pipeline.collection, Filter.derive_of_allMovable c h.2,
      Store.collection_of_movable c h.1]
    rfl
  | .directory .., h | .journaled .., h => by simp only [Store.movable, Bool.false_eq_true] at h

theorem Filter.derive_of_allMovable (c : String) :
    ∀ {fs : List Filter}, Filter.allMovable fs = true →
      Pipeline.derive (Filter.derivations c fs) = pure (Filter.allMoved c fs)
  | [], _ => by rw [Filter.derivations, Filter.allMoved, Pipeline.derive]
  | f :: rest, h => by
    rw [Filter.allMovable, Bool.and_eq_true] at h
    rw [Filter.derivations, Filter.allMoved, Pipeline.derive, Filter.derive_of_movable c h.1,
      Filter.derive_of_allMovable c h.2]
    rfl

theorem Filter.derive_of_movable (c : String) :
    ∀ {f : Filter}, f.movable = true → f.derive c = pure (some (f.moved c))
  | .ignore _ _ active, h => by
    rw [Filter.movable] at h
    rw [Filter.derive, Filter.moved, Store.collection_of_movable c h, map_pure]
  | .stock _, h => by simp only [Filter.movable, Bool.false_eq_true] at h

end

/-! ## Dialogues -/

/-- Opening a collection moves all of a store there. The view of a collection that is opened from another
collection has the same transcripts, of every dialogue in every world, whatever other views there are. No
opening fails or changes anything. -/
theorem Store.transcript_moved {s : Store} (h : s.movable = true) (a b : String) :
    ∃ u v, (∀ w, View.collection s a w = .ok u w) ∧ (∀ w, View.collection u b w = .ok v w) ∧
      (∀ w, View.collection s b w = .ok (s.moved b) w) ∧
      ∀ (others : List Store) (w : World) (turns : List Turn),
        Session.transcript ⟨others ++ [v], w⟩ turns =
          Session.transcript ⟨others ++ [s.moved b], w⟩ turns := by
  have hopens : ∀ {t : Store}, t.movable = true → ∀ c w, View.collection t c w = .ok (t.moved c) w := by
    intro t ht c w
    show t.collection c w = _
    rw [Store.collection_of_movable c ht, Run.pure_apply]
  have hmoved : (s.moved a).movable = true := by rw [Store.movable_moved, h]
  refine ⟨s.moved a, (s.moved a).moved b, hopens h a, hopens hmoved b, hopens h b, ?_⟩
  intro others w turns
  rw [Store.moved_moved]

/-- An ignore filter in an ignore filter, around a view for reading only. -/
theorem Store.transcript_moved_nested :
    let nearby : Store := .layered (some 0) (.shelf 1 "") [.ignore ⟨[]⟩ false (.shelf 2 "language.fr")]
    let site : Store := .layered none (.readOnly (.shelf 0 "")) [.ignore ⟨[]⟩ true nearby,
      .ignore ⟨[("~system.site", .exempt "system.site")]⟩ false (.readOnly nearby)]
    site.movable = true ∧
      ∃ u v, (∀ w, View.collection site "language.de" w = .ok u w) ∧
        (∀ w, View.collection u "" w = .ok v w) ∧
        (∀ w, View.collection site "" w = .ok (site.moved "") w) ∧
        ∀ (others : List Store) (w : World) (turns : List Turn),
          Session.transcript ⟨others ++ [v], w⟩ turns =
            Session.transcript ⟨others ++ [site.moved ""], w⟩ turns := by
  intro nearby site
  have hsite : site.movable = true := by decide
  exact ⟨hsite, Store.transcript_moved hsite "language.de" ""⟩

end LayeredConfig
