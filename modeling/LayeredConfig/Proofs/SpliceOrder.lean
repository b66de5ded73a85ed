import LayeredConfig.Proofs.Face
import LayeredConfig.Proofs.Splice
/-!
# The order of spliced paths

Paths are spliced one after the other, and one may lead through the place of another. What comes out is
outlined without their order (`Ignore.splice_outlined`): below and at the paths stands what the active
document has; above a path under which that has a value stands a mapping; everything else keeps its face.
So documents of the same faces give such documents, in whatever order the paths are taken
(`Ignore.splice_like`).
-/

namespace LayeredConfig

namespace Value

variable {new v w : Value} {q rest : List String} {k : String}

/-! ## Above a path -/

/-- A mapping stands where a value was to be set below: it has the other entries of what was there, or
of the empty mapping where there was none. -/
def Grounded (o r : Option Value) : Prop :=
  ∃ es fs, (o.getD (.mapping [])).ground? = some es ∧ r = some (.mapping fs) ∧ (others fs).Perm (others es)

theorem grounded_nil {r : Option Value} (h : Grounded (at? q (.mapping [])) r) : Grounded none r := by
  cases q with
  | nil => exact h
  | cons l q => exact h

/-- Where a value is set below, a mapping stands. -/
theorem grounded_with? {r : Value} (h : with? new (q ++ k :: rest) v = some r) :
    Grounded (at? q v) (at? q r) := by
  induction q generalizing v r with
  | nil =>
    obtain ⟨es, inner, hground, -, rfl⟩ := with?_cons h
    refine ⟨es, _, hground, rfl, ?_⟩
    rw [others_put]
  | cons l q ih =>
    obtain ⟨es, inner, hground, hinner, rfl⟩ := with?_cons h
    rw [at?_cons, at?_cons, find?_ground? hground, entries?, Option.bind_some, find?_put, if_pos rfl,
      Option.bind_some]
    cases hl : find? l es with
    | some u =>
      rw [hl] at hinner
      exact ih hinner
    | none =>
      rw [hl] at hinner
      exact grounded_nil (ih hinner)

/-- Where a value is taken out below, the face stays. -/
theorem facing_without (hv : v.keyed) :
    Option.Rel Facing (at? q v) (at? q (without (q ++ k :: rest) v)) := by
  induction q generalizing v with
  | nil =>
    rw [at?, at?, List.nil_append]
    apply Option.Rel.some
    cases rest with
    | nil => exact facing_mapEntries fun es _ => perm_others_takeOut
    | cons l rest =>
      rw [without_cons]
      apply facing_mapEntries
      intro es _
      rw [others_adjust]
  | cons l q ih =>
    rw [at?_cons, at?_cons, List.cons_append, find?_without hv, if_pos rfl, if_neg (by simp)]
    cases hl : v.entries?.bind (find? l) with
    | none => exact .none
    | some u => exact ih (keyed_find? hv hl)

/-! ## Faces one after the other -/

theorem isSome_entries?_of_facing (h : Facing v w) : v.entries?.isSome = w.entries?.isSome := by
  induction h with
  | refl v => rfl
  | mapping h => rfl
  | tagged h ih => exact ih

theorem ground?_of_facing (h : Facing v w) {fs : List (Value × Value)} (hw : w.ground? = some fs) :
    ∃ es, v.ground? = some es ∧ (others fs).Perm (others es) := by
  cases h with
  | refl => exact ⟨fs, hw, .refl _⟩
  | @mapping es _ hothers =>
    cases hw
    exact ⟨es, rfl, hothers.symm⟩
  | @tagged t v w hface =>
    refine ⟨fs, ?_, .refl _⟩
    simp only [ground?] at hw ⊢
    split at hw
    · cases hw
    · next hnone =>
      rw [if_neg]
      · exact hw
      · intro hsome
        exact hnone ((isSome_entries?_of_facing hface).symm.trans hsome)

theorem rel_facing_trans {x y z : Option Value} (h : Option.Rel Facing x y) (h' : Option.Rel Facing y z) :
    Option.Rel Facing x z := by
  cases h with
  | none => exact h'
  | some h =>
    cases h' with
    | some h' => exact .some (h.trans h')

theorem rel_facing_refl (o : Option Value) : Option.Rel Facing o o := by
  cases o with
  | none => exact .none
  | some v => exact .some (.refl v)

theorem rel_facing_symm {x y : Option Value} (h : Option.Rel Facing x y) : Option.Rel Facing y x := by
  cases h with
  | none => exact .none
  | some h => exact .some h.symm

theorem Grounded.of_facing {x y r : Option Value} (h : Option.Rel Facing x y) (hr : Grounded y r) :
    Grounded x r := by
  cases h with
  | none => exact hr
  | some hface =>
    obtain ⟨fs, gs, hground, hr, hothers⟩ := hr
    obtain ⟨es, hes, hperm⟩ := ground?_of_facing hface hground
    exact ⟨es, gs, hes, hr, hothers.trans hperm⟩

theorem Grounded.facing {x y r : Option Value} (h : Grounded x y) (hr : Option.Rel Facing y r) :
    Grounded x r := by
  obtain ⟨es, fs, hground, rfl, hothers⟩ := h
  cases hr with
  | some hface =>
    cases hface with
    | refl => exact ⟨es, fs, hground, rfl, hothers⟩
    | mapping hperm => exact ⟨es, _, hground, rfl, hperm.symm.trans hothers⟩

theorem Grounded.trans {x y r : Option Value} (h : Grounded x y) (h' : Grounded y r) : Grounded x r := by
  obtain ⟨es, fs, hground, rfl, hothers⟩ := h
  obtain ⟨es', gs, hes', rfl, hothers'⟩ := h'
  cases hes'
  exact ⟨es, gs, hground, rfl, hothers'.trans hothers⟩

/-- What stands above on the same grounds has the same face. -/
theorem Grounded.rel {x y r s : Option Value} (h : Option.Rel Facing x y) (hr : Grounded x r)
    (hs : Grounded y s) : Option.Rel Facing r s := by
  obtain ⟨es, fs, hes, rfl, hfs⟩ := hr
  obtain ⟨es', gs, hes', rfl, hgs⟩ := hs.of_facing h
  rw [hes] at hes'
  cases hes'
  exact .some (.mapping (hfs.trans hgs.symm))

end Value

/-! ## Documents -/

namespace Document

open Value

variable {d r : Document} {p q : KeyPath} {new : Value}

/-- A path below another one leads on from there. -/
theorem exists_rest (hqp : q.segments <+: p.segments) (hpq : ¬ p.segments <+: q.segments) :
    p.first = q.first ∧ ∃ k rest, p.rest = q.rest ++ k :: rest := by
  obtain ⟨t, ht⟩ := hqp
  obtain ⟨hfirst, hrest⟩ := List.cons.inj ht
  cases t with
  | nil =>
    rw [List.append_nil] at ht
    exact absurd (ht ▸ List.prefix_refl _) hpq
  | cons k t => exact ⟨hfirst.symm, k, t, hrest.symm⟩

theorem grounded_with? (hqp : q.segments <+: p.segments) (hpq : ¬ p.segments <+: q.segments)
    (h : d.with? p new = some r) : Grounded (d.at? q) (r.at? q) := by
  obtain ⟨hfirst, k, rest, hrest⟩ := exists_rest hqp hpq
  obtain ⟨inner, hinner, rfl⟩ := Option.map_eq_some_iff.mp h
  rw [hrest, hfirst] at hinner
  rw [at?, at?, Dict.get?_insert, if_pos hfirst, Option.bind_some]
  have hgrounded := Value.grounded_with? hinner
  cases hq : d.get? q.first with
  | some u =>
    rw [hq] at hgrounded
    exact hgrounded
  | none =>
    rw [hq] at hgrounded
    exact grounded_nil hgrounded

theorem facing_without (hd : d.keyed) (hqp : q.segments <+: p.segments)
    (hpq : ¬ p.segments <+: q.segments) : Option.Rel Facing (d.at? q) ((d.without p).at? q) := by
  obtain ⟨hfirst, k, rest, hrest⟩ := exists_rest hqp hpq
  rw [at?, at?, get?_without, if_pos hfirst, if_neg (by simp [hrest]), hrest]
  cases hq : d.get? q.first with
  | none => exact .none
  | some u => exact Value.facing_without (keyed_iff.mp hd _ _ hq)

end Document

namespace Ignore

open Value

variable {active : Option Document} {d e r s : Document} {p q : KeyPath} {paths others : List KeyPath}

/-! ## One key -/

/-- What is not below a path keeps its face when that is taken, unless a value is set below it. -/
theorem facing_spliceKey (hd : d.keyed) (hpq : ¬ p.segments <+: q.segments)
    (hnone : q.segments <+: p.segments → active.bind (·.at? p) = none)
    (h : spliceKey active d p = some r) : Option.Rel Facing (d.at? q) (r.at? q) := by
  by_cases hqp : q.segments <+: p.segments
  · rcases spliceKey_cases h with ⟨v, hv, -⟩ | ⟨-, rfl⟩
    · rw [hnone hqp] at hv
      cases hv
    · exact Document.facing_without hd hqp hpq
  · rw [at?_spliceKey_of_apart hd ⟨hpq, hqp⟩ h]
    exact rel_facing_refl _

/-- Above a path under which a value is set, a mapping stands. -/
theorem grounded_spliceKey (hpq : ¬ p.segments <+: q.segments) (hqp : q.segments <+: p.segments)
    (hsome : active.bind (·.at? p) ≠ none) (h : spliceKey active d p = some r) :
    Grounded (d.at? q) (r.at? q) := by
  rcases spliceKey_cases h with ⟨v, -, hr⟩ | ⟨hv, -⟩
  · exact Document.grounded_with? hqp hpq hr
  · exact absurd hv hsome

/-! ## Many keys -/

theorem keyed_splice (ha : ∀ a ∈ active, a.keyed) (hd : d.keyed) (h : splice active paths d = some r) :
    r.keyed := by
  induction paths generalizing d with
  | nil =>
    rw [splice_nil, Option.some.injEq] at h
    exact h ▸ hd
  | cons p paths ih =>
    obtain ⟨e, he, hr⟩ := Option.bind_eq_some_iff.mp (splice_cons ▸ h)
    exact ih (keyed_spliceKey ha hd he) hr

/-- The outcome at a path. -/
inductive Outlined (active : Option Document) (paths : List KeyPath) (q : KeyPath) :
    Option Value → Option Value → Prop
  /-- The path leads through the place of one that was taken. -/
  | taken {o : Option Value} {p : KeyPath} : p ∈ paths → p.segments <+: q.segments →
      Outlined active paths q o (active.bind (·.at? q))
  /-- A value was set below. -/
  | made {o r : Option Value} {p : KeyPath} : (∀ p ∈ paths, ¬ p.segments <+: q.segments) → p ∈ paths →
      q.segments <+: p.segments → active.bind (·.at? p) ≠ none → Grounded o r → Outlined active paths q o r
  /-- No value was set, neither here nor below. -/
  | kept {o r : Option Value} : (∀ p ∈ paths, ¬ p.segments <+: q.segments) →
      (∀ p ∈ paths, q.segments <+: p.segments → active.bind (·.at? p) = none) →
      Option.Rel Facing o r → Outlined active paths q o r

theorem facing_splice (ha : ∀ a ∈ active, a.keyed) (hd : d.keyed)
    (hover : ∀ p ∈ paths, ¬ p.segments <+: q.segments)
    (hnone : ∀ p ∈ paths, q.segments <+: p.segments → active.bind (·.at? p) = none)
    (h : splice active paths d = some r) : Option.Rel Facing (d.at? q) (r.at? q) := by
  induction paths generalizing d with
  | nil =>
    rw [splice_nil, Option.some.injEq] at h
    rw [h]
    exact rel_facing_refl _
  | cons p paths ih =>
    obtain ⟨e, he, hr⟩ := Option.bind_eq_some_iff.mp (splice_cons ▸ h)
    have hhere := facing_spliceKey hd (hover p (by simp)) (hnone p (by simp)) he
    have hrest := ih (keyed_spliceKey ha hd he) (fun p hp => hover p (by simp [hp]))
      (fun p hp => hnone p (by simp [hp])) hr
    exact rel_facing_trans hhere hrest

theorem grounded_splice (ha : ∀ a ∈ active, a.keyed) (hd : d.keyed)
    (hover : ∀ p ∈ paths, ¬ p.segments <+: q.segments)
    (hmade : ∃ p ∈ paths, q.segments <+: p.segments ∧ active.bind (·.at? p) ≠ none)
    (h : splice active paths d = some r) : Grounded (d.at? q) (r.at? q) := by
  induction paths generalizing d with
  | nil =>
    obtain ⟨p, hp, -⟩ := hmade
    cases hp
  | cons p paths ih =>
    obtain ⟨e, he, hr⟩ := Option.bind_eq_some_iff.mp (splice_cons ▸ h)
    have hkeyed := keyed_spliceKey ha hd he
    have hover' : ∀ p ∈ paths, ¬ p.segments <+: q.segments := fun p hp => hover p (by simp [hp])
    by_cases hrest : ∃ p ∈ paths, q.segments <+: p.segments ∧ active.bind (·.at? p) ≠ none
    · have hlater := ih hkeyed hover' hrest hr
      -- The first path may set a value below as well, but need not.
      by_cases hfirst : q.segments <+: p.segments ∧ active.bind (·.at? p) ≠ none
      · exact (grounded_spliceKey (hover p (by simp)) hfirst.1 hfirst.2 he).trans hlater
      · have hnone : q.segments <+: p.segments → active.bind (·.at? p) = none := by
          intro hqp
          by_contra hsome
          exact hfirst ⟨hqp, hsome⟩
        exact hlater.of_facing (facing_spliceKey hd (hover p (by simp)) hnone he)
    · have hfirst : q.segments <+: p.segments ∧ active.bind (·.at? p) ≠ none := by
        obtain ⟨p', hp', hqp⟩ := hmade
        rcases List.mem_cons.mp hp' with rfl | hp'
        · exact hqp
        · exact absurd ⟨p', hp', hqp⟩ hrest
      have hnone : ∀ p ∈ paths, q.segments <+: p.segments → active.bind (·.at? p) = none := by
        intro p' hp' hqp
        by_contra hsome
        exact hrest ⟨p', hp', hqp, hsome⟩
      have hhere := grounded_spliceKey (hover p (by simp)) hfirst.1 hfirst.2 he
      exact hhere.facing (facing_splice ha hkeyed hover' hnone hr)

/-- What splicing leaves at each path, whatever the order of the paths that are taken. -/
theorem splice_outlined (ha : ∀ a ∈ active, a.keyed) (hd : d.keyed) (h : splice active paths d = some r)
    (q : KeyPath) : Outlined active paths q (d.at? q) (r.at? q) := by
  by_cases hover : ∃ p ∈ paths, p.segments <+: q.segments
  · obtain ⟨p, hp, hpq⟩ := hover
    obtain ⟨rest, -, hat⟩ := Document.at?_of_prefix hpq
    have htaken : r.at? q = active.bind (·.at? q) := by
      rw [hat r, (splice_spliced ha hd h).taken p hp]
      cases active with
      | none => rfl
      | some a => exact (hat a).symm
    rw [htaken]
    exact .taken hp hpq
  · have hover : ∀ p ∈ paths, ¬ p.segments <+: q.segments := fun p hp hpq => hover ⟨p, hp, hpq⟩
    by_cases hmade : ∃ p ∈ paths, q.segments <+: p.segments ∧ active.bind (·.at? p) ≠ none
    · have hgrounded := grounded_splice ha hd hover hmade h
      obtain ⟨p, hp, hqp, hsome⟩ := hmade
      exact .made hover hp hqp hsome hgrounded
    · have hnone : ∀ p ∈ paths, q.segments <+: p.segments → active.bind (·.at? p) = none := by
        intro p hp hqp
        by_contra hsome
        exact hmade ⟨p, hp, hqp, hsome⟩
      exact .kept hover hnone (facing_splice ha hd hover hnone h)

/-- Documents with the same faces along all paths are spliced to such documents, in whatever order the
paths are taken, and however often. -/
theorem splice_like (ha : ∀ a ∈ active, a.keyed) (hd : d.keyed) (he : e.keyed) (hde : d.Like e)
    (hpaths : ∀ p, p ∈ paths ↔ p ∈ others) (hr : splice active paths d = some r)
    (hs : splice active others e = some s) : r.Like s := by
  intro q
  have hleft := splice_outlined ha hd hr q
  have hright := splice_outlined ha he hs q
  generalize r.at? q = x at hleft ⊢
  generalize s.at? q = y at hright ⊢
  -- Which of the three cases holds depends on the set of paths only.
  cases hleft with
  | taken hp hpq =>
    cases hright with
    | taken => exact rel_facing_refl _
    | made hover => exact absurd hpq (hover _ ((hpaths _).mp hp))
    | kept hover => exact absurd hpq (hover _ ((hpaths _).mp hp))
  | made hover hp hqp hsome hgrounded =>
    cases hright with
    | taken hp' hpq => exact absurd hpq (hover _ ((hpaths _).mpr hp'))
    | made _ _ _ _ hgrounded' => exact Grounded.rel (hde q) hgrounded hgrounded'
    | kept _ hnone => exact absurd (hnone _ ((hpaths _).mp hp) hqp) hsome
  | kept hover hnone hface =>
    cases hright with
    | taken hp' hpq => exact absurd hpq (hover _ ((hpaths _).mpr hp'))
    | made _ hp' hqp hsome => exact absurd (hnone _ ((hpaths _).mpr hp') hqp) hsome
    | kept _ _ hface' => exact rel_facing_trans (rel_facing_trans (rel_facing_symm hface) (hde q)) hface'

end Ignore

end LayeredConfig
