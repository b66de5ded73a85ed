import LayeredConfig.Proofs.SpliceOrder
/-!
# What is in the way of splicing

A value cannot be set below a tagged mapping, and everywhere else it can
(`Document.with?_eq_none_iff`). So splicing has an answer where no tagged mapping stands above a path,
neither in the document nor in the active one (`Ignore.exists_splice`). What the answer is,
`Ignore.splice_exact` says for all lists of paths, also where one leads through the place of another.
-/

namespace LayeredConfig

namespace Value

variable {new v w : Value} {p : List String}

/-- Whether a value is a mapping with a tag. -/
def isTaggedMapping : Value → Bool
  | .tagged _ v => v.entries?.isSome
  | _ => false

theorem ground?_eq_none : v.ground? = none ↔ v.isTaggedMapping = true := by
  cases v with
  | tagged t v =>
    simp only [ground?, isTaggedMapping]
    cases hv : v.entries?.isSome <;> simp [entries?, hv]
  | _ => simp [ground?, isTaggedMapping, entries?]

/-- A value cannot be set exactly if it were to be set below a tagged mapping. -/
theorem with?_eq_none_iff : with? new p v = none ↔
    ∃ q k rest w, p = q ++ k :: rest ∧ at? q v = some w ∧ w.isTaggedMapping = true := by
  induction p generalizing v with
  | nil => simp [with?]
  | cons l p ih =>
    constructor
    · intro h
      cases hground : v.ground? with
      | none => exact ⟨[], l, p, v, rfl, rfl, ground?_eq_none.mp hground⟩
      | some es =>
        have hbelow : with? new p ((find? l es).getD (.mapping [])) = none := by
          simpa [with?, hground] using h
        obtain ⟨q, k, rest, w, rfl, hw, htagged⟩ := ih.mp hbelow
        refine ⟨l :: q, k, rest, w, rfl, ?_, htagged⟩
        rw [at?_cons, find?_ground? hground]
        cases hl : find? l es with
        | some u => simpa [hl] using hw
        | none =>
          -- A mapping that is made on the way is empty and has no tag.
          rw [hl, Option.getD_none] at hw
          cases q with
          | nil =>
            cases hw
            cases htagged
          | cons m q => cases hw
    · rintro ⟨q, k, rest, w, hp, hw, htagged⟩
      cases q with
      | nil =>
        obtain ⟨rfl, rfl⟩ := List.cons.inj hp
        cases hw
        simp [with?, ground?_eq_none.mpr htagged]
      | cons m q =>
        obtain ⟨rfl, rfl⟩ := List.cons.inj hp
        cases hground : v.ground? with
        | none => simp [with?, hground]
        | some es =>
          rw [at?_cons, find?_ground? hground] at hw
          obtain ⟨u, hu, hw⟩ := Option.bind_eq_some_iff.mp hw
          have hbelow : with? new (q ++ k :: rest) u = none :=
            ih.mpr ⟨q, k, rest, w, rfl, hw, htagged⟩
          simp [with?, hground, hu, hbelow]

theorem isTaggedMapping_of_facing (h : Facing v w) : v.isTaggedMapping = w.isTaggedMapping := by
  cases h with
  | refl => rfl
  | mapping => rfl
  | tagged h => exact isSome_entries?_of_facing h

end Value

/-! ## Documents -/

namespace Document

open Value

variable {d r : Document} {p : KeyPath} {new : Value}

/-- No value above the place that a path leads to is a tagged mapping. -/
def Passable (d : Document) (p : KeyPath) : Prop :=
  ∀ q : KeyPath, q.segments <+: p.segments → ¬ p.segments <+: q.segments →
    ∀ v, d.at? q = some v → v.isTaggedMapping = false

/-- A value cannot be set exactly if a tagged mapping is above. -/
theorem with?_eq_none_iff : d.with? p new = none ↔ ¬ d.Passable p := by
  have hvalue : d.with? p new = none ↔
      Value.with? new p.rest ((d.get? p.first).getD (.mapping [])) = none := by
    rw [with?, Option.map_eq_none_iff]
  rw [hvalue, Value.with?_eq_none_iff]
  constructor
  · rintro ⟨q, k, rest, w, hp, hw, htagged⟩ hpass
    have hat : d.at? ⟨p.first, q⟩ = some w := by
      rw [at?]
      cases hfirst : d.get? p.first with
      | some u => simpa [hfirst] using hw
      | none =>
        rw [hfirst, Option.getD_none] at hw
        cases q with
        | nil =>
          cases hw
          cases htagged
        | cons m q => cases hw
    have hsegments : p.segments = KeyPath.segments ⟨p.first, q⟩ ++ k :: rest := by
      simp [KeyPath.segments, hp]
    have habove : ¬ p.segments <+: KeyPath.segments ⟨p.first, q⟩ := by
      intro hprefix
      have hlength := hprefix.length_le
      rw [hsegments, List.length_append, List.length_cons] at hlength
      omega
    rw [hpass _ (hsegments ▸ List.prefix_append ..) habove w hat] at htagged
    cases htagged
  · intro h
    unfold Passable at h
    push Not at h
    obtain ⟨q, hqp, hpq, w, hw, htagged⟩ := h
    obtain ⟨hfirst, k, rest, hrest⟩ := exists_rest hqp hpq
    obtain ⟨u, hu, hat⟩ := Option.bind_eq_some_iff.mp hw
    refine ⟨q.rest, k, rest, w, hrest, ?_, by simpa using htagged⟩
    rw [hfirst, hu]
    exact hat

end Document

namespace Ignore

open Value

variable {active : Option Document} {d r : Document} {p k : KeyPath} {paths : List KeyPath}

/-! ## Splicing has an answer -/

theorem exists_spliceKey (active : Option Document) (hd : d.Passable p) :
    ∃ r, spliceKey active d p = some r := by
  unfold spliceKey
  split
  · apply Option.ne_none_iff_exists'.mp
    rw [ne_eq, Document.with?_eq_none_iff]
    exact not_not_intro hd
  · exact ⟨_, rfl⟩

/-- A document is spliced into itself, and stays as it is. -/
theorem splice_of_passable (hd : ∀ p ∈ paths, d.Passable p) : splice (some d) paths d = some d := by
  induction paths with
  | nil => rfl
  | cons p paths ih =>
    obtain ⟨e, he⟩ := exists_spliceKey (some d) (hd p (by simp))
    obtain rfl : e = d := spliceKey_eq_self rfl he
    rw [splice_cons, he, Option.bind_some]
    exact ih fun q hq => hd q (by simp [hq])

/-- Taking a key puts no tagged mapping above a path but what the active document has there. -/
theorem passable_spliceKey (hkeyed : d.keyed) (hd : d.Passable p) (ha : ∀ a ∈ active, a.Passable p)
    (h : spliceKey active d k = some r) : r.Passable p := by
  intro q hqp hpq v hv
  by_cases hkq : k.segments <+: q.segments
  · -- What stands at `q` was taken with the key.
    obtain ⟨rest, -, hat⟩ := Document.at?_of_prefix hkq
    rw [hat r, at?_spliceKey hkeyed h] at hv
    cases active with
    | none => cases hv
    | some a => exact ha a rfl q hqp hpq v ((hat a).trans hv)
  by_cases hset : q.segments <+: k.segments ∧ active.bind (·.at? k) ≠ none
  · -- A value was set below `q`, where a mapping without a tag stands then.
    obtain ⟨_, fs, -, hr, -⟩ := grounded_spliceKey hkq hset.1 hset.2 h
    rw [hr, Option.some.injEq] at hv
    subst hv
    rfl
  · have hnone : q.segments <+: k.segments → active.bind (·.at? k) = none := by
      intro hqk
      by_contra hsome
      exact hset ⟨hqk, hsome⟩
    have hface := facing_spliceKey hkeyed hkq hnone h
    rw [hv] at hface
    cases hold : d.at? q with
    | none =>
      rw [hold] at hface
      cases hface
    | some u =>
      rw [hold] at hface
      cases hface with
      | some hface => rw [← isTaggedMapping_of_facing hface, hd q hqp hpq u hold]

/-- Splicing has an answer where no tagged mapping is above a path, on either side. -/
theorem exists_splice (hkeyed : d.keyed) (hactive : ∀ a ∈ active, a.keyed)
    (hd : ∀ p ∈ paths, d.Passable p) (ha : ∀ p ∈ paths, ∀ a ∈ active, a.Passable p) :
    ∃ r, splice active paths d = some r := by
  induction paths generalizing d with
  | nil => exact ⟨d, rfl⟩
  | cons k paths ih =>
    obtain ⟨e, he⟩ := exists_spliceKey active (hd k (by simp))
    rw [splice_cons, he, Option.bind_some]
    refine ih (keyed_spliceKey hactive hkeyed he) (fun p hp => ?_) fun p hp => ha p (by simp [hp])
    exact passable_spliceKey hkeyed (hd p (by simp [hp])) (ha p (by simp [hp])) he

/-- What splicing takes, keeps and leaves alone, for any paths in any order: it has an answer where no
tagged mapping is in the way; the answer has the values of the active document at the paths, and those
of the document at all paths apart from them; splicing it once more changes nothing, and neither does
splicing a document into itself. -/
theorem splice_exact (hkeyed : d.keyed) (hactive : ∀ a ∈ active, a.keyed) (paths : List KeyPath) :
    ((∀ p ∈ paths, d.Passable p ∧ ∀ a ∈ active, a.Passable p) →
      ∃ r, splice active paths d = some r) ∧
    (∀ r, splice active paths d = some r →
      (∀ p ∈ paths, r.at? p = active.bind (·.at? p)) ∧
      (∀ q : KeyPath, (∀ p ∈ paths, Apart p.segments q.segments) → r.at? q = d.at? q) ∧
      ∀ s, splice active paths r = some s → s = r) ∧
    ∀ r, splice (some d) paths d = some r → r = d := by
  refine ⟨fun hpass => ?_, fun r hr => ?_, fun r hr => splice_self hr⟩
  · exact exists_splice hkeyed hactive (fun p hp => (hpass p hp).1) fun p hp => (hpass p hp).2
  · have hspliced := splice_spliced hactive hkeyed hr
    exact ⟨hspliced.taken, hspliced.kept, fun s hs => splice_eq_self hspliced.taken hs⟩

/-- A page whose front is taken before the whole page is, which has more entries. -/
theorem splice_exact_page :
    let text (key value : String) : Value × Value := (.string key, .string value)
    let d : Document := .ofList [("name", .string "Sync"), ("slogan", .string "Hello"),
      ("page", .mapping [text "front" "/sync", text "denied" "/denied"])]
    let a : Document := .ofList [("name", .string "Active"),
      ("page", .mapping [text "missing" "/missing", text "front" "/active"])]
    let paths : List KeyPath := [⟨"page", ["front"]⟩, ⟨"page", []⟩, ⟨"slogan", []⟩]
    d.keyed = true ∧ a.keyed = true ∧ ∃ r, splice (some a) paths d = some r ∧
      r.at? ⟨"page", ["front"]⟩ = some (.string "/active") ∧ r.at? ⟨"slogan", []⟩ = none ∧
      r.at? ⟨"name", []⟩ = some (.string "Sync") ∧
      (∀ s, splice (some a) paths r = some s → s = r) ∧
      ∀ s, splice (some d) paths d = some s → s = d := by
  intro text d a paths
  have hd : d.keyed = true := by decide +kernel
  have ha : a.keyed = true := by decide +kernel
  have hactive : ∀ b ∈ some a, b.keyed = true := by simpa using ha
  obtain ⟨-, hexact, hself⟩ := splice_exact hd hactive paths
  obtain ⟨r, hr⟩ := Option.isSome_iff_exists.mp
    (by decide +kernel : (splice (some a) paths d).isSome = true)
  obtain ⟨htaken, hkept, hagain⟩ := hexact r hr
  have hat : ∀ {es : List (String × Value)} {p : KeyPath}, Dict.Distinct es →
      Document.at? (.ofList es) p = (Dict.lookup p.first es).bind (Value.at? p.rest) := by
    intro es p hes
    rw [Document.at?, Dict.get?_ofList hes]
  refine ⟨hd, ha, r, hr, ?_, ?_, ?_, hagain, hself⟩
  · rw [htaken ⟨"page", ["front"]⟩ (by simp [paths]), Option.bind_some, hat (by decide)]
    rfl
  · rw [htaken ⟨"slogan", []⟩ (by simp [paths]), Option.bind_some, hat (by decide)]
    rfl
  · rw [hkept ⟨"name", []⟩ (by decide), hat (by decide)]
    rfl

end Ignore

end LayeredConfig
