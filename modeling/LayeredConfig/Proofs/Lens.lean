import LayeredConfig.Proofs.Passage
import Mathlib.Order.WellFounded
/-!
# Key paths as lenses

Looking up, setting and taking out at a key path are three walks through the same mappings, and they agree
on every document: what was set is found, a second value replaces the first, setting what is there and
taking out what is not there change nothing, and what is apart from the path stays (`Document.lens_laws`).
Only a tagged mapping tells them apart. Look-up and taking out see through its tags, and a value cannot be
set below it, if it is the first one on the way that is not a plain mapping
(`Document.with?_eq_none_iff_first`).
-/

namespace LayeredConfig

namespace Value

variable {v w new r : Value} {key : String} {es : List (Value × Value)} {p : List String}

/-! ## Setting twice -/

theorem put_put (v w : Value) (es : List (Value × Value)) :
    put key w (put key v es) = put key w es := by
  induction es with
  | nil => simp [put, isKey]
  | cons e rest ih =>
    by_cases he : e.1.isKey key = true
    · simp [put, he]
    · simp [put, he, ih]

/-- The value that was set first is replaced, where the second one is set. -/
theorem with?_with? (h : with? v p new = some r) : with? w p r = with? w p new := by
  induction p generalizing new r with
  | nil => rfl
  | cons k p ih =>
    obtain ⟨es, inner, hground, hinner, rfl⟩ := with?_cons h
    have hput : find? k (put k inner es) = some inner := by rw [find?_put, if_pos rfl]
    rw [with?, with?, hground]
    simp only [ground?, Option.bind_some, hput, Option.getD_some, ih hinner, put_put]

/-! ## Mappings on the way -/

/-- What has something below is a mapping, with tags or without. -/
theorem exists_mapping_of_at? {k : String} (h : at? (k :: p) v = some w)
    (hv : v.isTaggedMapping = false) : ∃ es, v = .mapping es := by
  obtain ⟨u, hu, -⟩ := Option.bind_eq_some_iff.mp h
  obtain ⟨es, hes, -⟩ := Option.bind_eq_some_iff.mp hu
  cases v with
  | mapping es => exact ⟨es, rfl⟩
  | tagged t v =>
    have htagged : v.entries?.isSome = false := hv
    rw [entries?] at hes
    rw [hes] at htagged
    cases htagged
  | _ => cases hes

end Value

namespace KeyPath

variable {p q u : KeyPath}

/-- A path ends above the place that another one leads to, on the way there. -/
def Above (q p : KeyPath) : Prop := q.segments <+: p.segments ∧ q ≠ p

instance (q p : KeyPath) : Decidable (q.Above p) := inferInstanceAs (Decidable (_ ∧ _))

theorem segments_inj (h : q.segments = p.segments) : q = p := by
  obtain ⟨first, rest⟩ := q
  obtain ⟨first', rest'⟩ := p
  obtain ⟨rfl, rfl⟩ := List.cons.inj h
  rfl

theorem above_iff : q.Above p ↔ q.segments <+: p.segments ∧ ¬ p.segments <+: q.segments := by
  refine and_congr_right fun hqp => not_congr ⟨?_, fun hpq => ?_⟩
  · rintro rfl
    exact List.prefix_rfl
  · exact segments_inj (hqp.eq_of_length_le hpq.length_le)

theorem Above.trans (h : u.Above q) (h' : q.Above p) : u.Above p := by
  rw [above_iff] at h h' ⊢
  exact ⟨h.1.trans h'.1, fun hpu => h.2 (h'.1.trans hpu)⟩

theorem Above.length_lt (h : q.Above p) : q.segments.length < p.segments.length := by
  rw [above_iff] at h
  refine Nat.lt_of_le_of_ne h.1.length_le fun heq => h.2 ?_
  exact h.1.eq_of_length heq ▸ List.prefix_rfl

end KeyPath

namespace Document

variable {d r : Document} {p q : KeyPath} {new : Value}

theorem with?_with? {w : Value} (h : d.with? p new = some r) : r.with? p w = d.with? p w := by
  obtain ⟨inner, hinner, rfl⟩ := Option.map_eq_some_iff.mp h
  have hinsert : (d.insert p.first inner).insert p.first = d.insert p.first := by
    funext v
    refine Dict.ext fun name => ?_
    simp only [Dict.get?_insert]
    split <;> rfl
  rw [with?, with?, Dict.get?_insert, if_pos rfl, Option.getD_some, Value.with?_with? hinner, hinsert]

/-- Taking out twice is taking out once. -/
theorem without_without (hd : d.keyed) : (d.without p).without p = d.without p :=
  without_of_at? (at?_without hd)

/-- A value cannot be set exactly if the first value on the way that is not a plain mapping is a tagged
one. -/
theorem with?_eq_none_iff_first : d.with? p new = none ↔
    ∃ q : KeyPath, q.Above p ∧ (∃ w, d.at? q = some w ∧ w.isTaggedMapping = true) ∧
      ∀ u : KeyPath, u.Above q → ∃ es, d.at? u = some (.mapping es) := by
  rw [with?_eq_none_iff]
  constructor
  · intro h
    have hsome : ∃ q : KeyPath, q.Above p ∧ ∃ w, d.at? q = some w ∧ w.isTaggedMapping = true := by
      unfold Passable at h
      push Not at h
      obtain ⟨q, hqp, hpq, w, hw, htagged⟩ := h
      exact ⟨q, KeyPath.above_iff.mpr ⟨hqp, hpq⟩, w, hw, by simpa using htagged⟩
    -- The shortest of the paths to a tagged mapping has none above it.
    obtain ⟨q, ⟨hqp, w, hw, htagged⟩, hfirst⟩ :=
      WellFounded.has_min (measure fun q : KeyPath => q.segments.length).wf _ hsome
    refine ⟨q, hqp, ⟨w, hw, htagged⟩, fun u huq => ?_⟩
    obtain ⟨rest, hrest, hat⟩ := at?_of_prefix huq.1
    rw [hat] at hw
    obtain ⟨v, hv, hw⟩ := Option.bind_eq_some_iff.mp hw
    have hplain : v.isTaggedMapping = false := by
      by_contra hne
      exact hfirst u ⟨huq.trans hqp, v, hv, by simpa using hne⟩ huq.length_lt
    cases rest with
    | nil =>
      rw [List.append_nil] at hrest
      exact absurd (KeyPath.segments_inj hrest.symm) huq.2
    | cons k rest =>
      obtain ⟨es, rfl⟩ := Value.exists_mapping_of_at? hw hplain
      exact ⟨es, hv⟩
  · rintro ⟨q, hqp, ⟨w, hw, htagged⟩, -⟩ hpass
    rw [KeyPath.above_iff] at hqp
    rw [hpass q hqp.1 hqp.2 w hw] at htagged
    cases htagged

/-- The laws of key paths. Setting a value fails exactly if the first value on the way that is not a plain
mapping is a tagged mapping. Where it does not fail, the value is found at the path, values at paths apart
from it stay, a second value is set as if it were the first, and setting what is there changes nothing, not
even the order of a mapping. After taking out there is no value at the path, values at paths apart from it
stay, taking out what is not there changes nothing, and taking out twice is taking out once. -/
theorem lens_laws (hd : d.keyed) (p : KeyPath) (v : Value) :
    (d.with? p v = none ↔
      ∃ q : KeyPath, q.Above p ∧ (∃ w, d.at? q = some w ∧ w.isTaggedMapping = true) ∧
        ∀ u : KeyPath, u.Above q → ∃ es, d.at? u = some (.mapping es)) ∧
    (∀ r, d.with? p v = some r →
      r.at? p = some v ∧ (∀ q : KeyPath, Apart p.segments q.segments → r.at? q = d.at? q) ∧
      (∀ w, r.with? p w = d.with? p w) ∧ (d.at? p = some v → r = d)) ∧
    (d.without p).at? p = none ∧
    (∀ q : KeyPath, Apart p.segments q.segments → (d.without p).at? q = d.at? q) ∧
    (d.at? p = none → d.without p = d) ∧ (d.without p).without p = d.without p := by
  refine ⟨with?_eq_none_iff_first, fun r hr => ?_, at?_without hd, fun q hq => at?_without_of_apart hd hq,
    without_of_at?, without_without hd⟩
  exact ⟨at?_with? hr, fun q hq => at?_with?_of_apart hq hr, fun w => with?_with? hr,
    fun hp => with?_at? hp hr⟩

/-- Below a mapping under two tags nothing can be set, but something can be taken out. A text gives way to
a mapping. -/
theorem lens_laws_page :
    let text (key value : String) : Value × Value := (.string key, .string value)
    let d : Document := .ofList [
      ("links", .tagged "all" (.tagged "local" (.mapping [text "home" "/", text "help" "/help"]))),
      ("page", .mapping [text "front" "/sync", text "denied" "/denied"])]
    let home : KeyPath := ⟨"links", ["home"]⟩
    let front : KeyPath := ⟨"page", ["front", "path"]⟩
    let denied : KeyPath := ⟨"page", ["denied"]⟩
    d.keyed = true ∧ (∀ v, d.with? home v = none) ∧ (d.without home).at? home = none ∧
      ∃ r, d.with? front (.string "/start") = some r ∧ r.at? front = some (.string "/start") ∧
        r.at? denied = d.at? denied ∧ ∀ w, r.with? front w = d.with? front w := by
  intro text d home front denied
  have hd : d.keyed = true := by decide +kernel
  have hget : d.get? "links" = _ := Dict.get?_ofList (by decide) "links"
  have hlinks : ∃ w, d.at? ⟨"links", []⟩ = some w ∧ w.isTaggedMapping = true := by
    rw [Document.at?, hget]
    exact ⟨_, rfl, rfl⟩
  have habove : KeyPath.Above ⟨"links", []⟩ home := by decide
  have hfirst : ∀ u : KeyPath, u.Above ⟨"links", []⟩ → ∃ es, d.at? u = some (.mapping es) := by
    intro u hu
    have hlength := hu.length_lt
    simp [KeyPath.segments] at hlength
  obtain ⟨r, hr⟩ := Option.isSome_iff_exists.mp
    (by decide +kernel : (d.with? front (.string "/start")).isSome = true)
  obtain ⟨-, -, hout, -⟩ := lens_laws hd home .null
  obtain ⟨-, hset, -⟩ := lens_laws hd front (.string "/start")
  obtain ⟨hfound, hstays, htwice, -⟩ := hset r hr
  refine ⟨hd, fun v => ?_, hout, r, hr, hfound, hstays denied (by decide), htwice⟩
  exact (lens_laws hd home v).1.mpr ⟨⟨"links", []⟩, habove, hlinks, hfirst⟩

end Document

end LayeredConfig
