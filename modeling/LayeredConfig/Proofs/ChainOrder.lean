import LayeredConfig.Registry
import Mathlib.Data.List.Forall2
import Mathlib.Data.List.Perm.Basic
import Mathlib.Data.List.TakeWhile
import Mathlib.Data.String.Basic
/-!
# The order of a chain

The filters of an overlay form a chain by their weights and ids, in whatever order they are declared.
Ids that pass the check are distinct, so no two declarations tie, and the enabled ones stand in one order
only (`Overlay.enabled_eq_of_perm`). The chain has a filter for each of them, or there is none because of
the first declaration of which no filter can be made (`Registry.chain_reordered`).
-/

namespace LayeredConfig

/-- A text keeps something without its blank ends exactly if one of its characters is not blank. -/
theorem Text.isEmpty_trim_eq_false (s : String) :
    (trim s).isEmpty = false ↔ ∃ c ∈ s.toList, isBlank c = false := by
  rw [Bool.eq_false_iff, ne_eq, trim, String.isEmpty_iff, String.ofList_eq_empty_iff,
    List.reverse_eq_nil_iff, List.dropWhile_eq_nil_iff]
  simp only [List.mem_reverse]
  constructor
  · intro h
    push Not at h
    obtain ⟨c, hc, hblank⟩ := h
    exact ⟨c, (List.dropWhile_sublist isBlank).subset hc, by simpa using hblank⟩
  · rintro ⟨c, hc, hblank⟩ hall
    -- The first character that is kept at the front is not blank, so there is none.
    have hnil : s.toList.dropWhile isBlank = [] := by
      by_contra hne
      have hhead := List.head_dropWhile_not isBlank hne
      rw [hall _ (List.head_mem hne)] at hhead
      cases hhead
    rw [List.dropWhile_eq_nil_iff.mp hnil c hc] at hblank
    cases hblank

/-! ## The check -/

namespace Overlay

variable {o p : Overlay} {a b c : Declaration} {ids seen : List String}

/-- The id of each declaration has a character that is not blank, and no id stands twice. -/
structure Valid (o : Overlay) : Prop where
  named : ∀ d ∈ o.declarations, ∃ c ∈ d.id.toList, Text.isBlank c = false
  distinct : o.declarations.Pairwise (·.id ≠ ·.id)

/-- The ids seen before count as if they stood in front. -/
theorem checkIds_eq_ok : checkIds seen ids = .ok () ↔
    (∀ id ∈ ids, ∃ c ∈ id.toList, Text.isBlank c = false) ∧ ids.Pairwise (· ≠ ·) ∧
      ∀ id ∈ ids, id ∉ seen := by
  induction ids generalizing seen with
  | nil => simp [checkIds]
  | cons id rest ih =>
    have hbelow : (∀ x ∈ rest, x ∉ id :: seen) ↔ (∀ x ∈ rest, id ≠ x) ∧ ∀ x ∈ rest, x ∉ seen := by
      simp only [List.mem_cons, not_or, ne_comm (a := id), forall_and, ne_eq]
    rw [checkIds, List.forall_mem_cons, List.forall_mem_cons, List.pairwise_cons,
      ← Text.isEmpty_trim_eq_false]
    split
    · next hblank => simp [hblank]
    · next hblank =>
      split
      · next hseen => simp [List.contains_iff_mem.mp hseen]
      · next hseen =>
        have hfresh : id ∉ seen := fun hmem => hseen (List.contains_iff_mem.mpr hmem)
        rw [ih, hbelow]
        constructor
        · rintro ⟨hnamed, hdistinct, hid, hrest⟩
          exact ⟨⟨by simpa using hblank, hnamed⟩, ⟨hid, hdistinct⟩, hfresh, hrest⟩
        · rintro ⟨⟨-, hnamed⟩, ⟨hid, hdistinct⟩, -, hrest⟩
          exact ⟨hnamed, hdistinct, hid, hrest⟩

theorem check_eq_ok : o.check = .ok () ↔ o.Valid := by
  rw [check, checkIds_eq_ok, List.pairwise_map, List.forall_mem_map]
  constructor
  · rintro ⟨hnamed, hdistinct, -⟩
    exact ⟨hnamed, hdistinct⟩
  · intro h
    exact ⟨h.named, h.distinct, by simp⟩

/-! ## The order -/

/-- A declaration has its place before another one: it has a smaller weight, or a smaller id and the
same weight. -/
def Before (a b : Declaration) : Prop := a.weight < b.weight ∨ a.weight = b.weight ∧ a.id < b.id

theorem Before.asymm (h : Before a b) : ¬ Before b a := by
  rintro (hlt | ⟨heq, hid⟩)
  · rcases h with h | h <;> omega
  · rcases h with h | ⟨-, h⟩
    · omega
    · exact String.lt_asymm h hid

theorem precedes_iff : precedes a b = true ↔ Before a b ∨ a.weight = b.weight ∧ a.id = b.id := by
  simp only [precedes, Before, Bool.or_eq_true, Bool.and_eq_true, decide_eq_true_eq, beq_iff_eq]
  rw [le_iff_lt_or_eq]
  tauto

theorem precedes_trans (a b c : Declaration) (hab : precedes a b = true) (hbc : precedes b c = true) :
    precedes a c = true := by
  simp only [precedes, Bool.or_eq_true, Bool.and_eq_true, decide_eq_true_eq, beq_iff_eq] at *
  rcases hab with hab | ⟨hab, hid⟩
  · exact .inl (by omega)
  · rcases hbc with hbc | ⟨hbc, hid'⟩
    · exact .inl (by omega)
    · exact .inr ⟨by omega, String.le_trans hid hid'⟩

theorem precedes_total (a b : Declaration) : (precedes a b || precedes b a) = true := by
  simp only [precedes, Bool.or_eq_true, Bool.and_eq_true, decide_eq_true_eq, beq_iff_eq]
  rcases lt_trichotomy a.weight b.weight with h | h | h
  · exact .inl (.inl h)
  · rcases String.le_total a.id b.id with hid | hid
    · exact .inl (.inr ⟨h, hid⟩)
    · exact .inr (.inr ⟨h.symm, hid⟩)
  · exact .inr (.inl h)

/-- The enabled declarations, in the order in which they are declared. -/
def asDeclared (o : Overlay) : List Declaration := o.declarations.filter (·.status)

theorem perm_enabled (o : Overlay) : o.enabled.Perm o.asDeclared := List.mergeSort_perm _ _

theorem pairwise_enabled (h : o.asDeclared.Pairwise (·.id ≠ ·.id)) : o.enabled.Pairwise Before := by
  have hsorted : o.enabled.Pairwise fun a b => precedes a b = true :=
    List.pairwise_mergeSort precedes_trans precedes_total o.asDeclared
  have hdistinct : o.enabled.Pairwise (·.id ≠ ·.id) :=
    ((perm_enabled o).pairwise_iff Ne.symm).mpr h
  refine hsorted.imp₂ (fun a b hab hid => ?_) hdistinct
  exact (precedes_iff.mp hab).resolve_right fun heq => hid heq.2

/-- Distinct declarations stand in one order only. -/
theorem enabled_eq_of_perm (h : o.asDeclared.Pairwise (·.id ≠ ·.id))
    (hperm : p.asDeclared.Perm o.asDeclared) : p.enabled = o.enabled := by
  have hp : p.asDeclared.Pairwise (·.id ≠ ·.id) := (hperm.pairwise_iff Ne.symm).mpr h
  refine List.Perm.eq_of_pairwise (fun a b _ _ hab hba => absurd hba hab.asymm)
    (pairwise_enabled hp) (pairwise_enabled h) ?_
  calc p.enabled.Perm p.asDeclared := perm_enabled p
    _ |>.Perm o.asDeclared := hperm
    _ |>.Perm o.enabled := (perm_enabled o).symm

theorem Valid.of_perm (h : o.Valid) (hperm : p.declarations.Perm o.declarations) : p.Valid where
  named d hd := h.named d (hperm.mem_iff.mp hd)
  distinct := (hperm.pairwise_iff Ne.symm).mpr h.distinct

end Overlay

/-! ## The chain -/

section Loops

variable {ε α β : Type} {f : α → Except ε β} {as : List α}

theorem mapM_eq_ok {bs : List β} : as.mapM f = .ok bs ↔ List.Forall₂ (fun a b => f a = .ok b) as bs := by
  induction as generalizing bs with
  | nil => cases bs <;> simp [pure, Except.pure]
  | cons a as ih =>
    rw [List.mapM_cons]
    cases ha : f a with
    | error e => cases bs <;> simp [bind, Except.bind, ha]
    | ok b =>
      cases has : as.mapM f with
      | error e => cases bs <;> simp [bind, Except.bind, ha, ← ih, has]
      | ok bs' => cases bs <;> simp [bind, Except.bind, pure, Except.pure, ha, ← ih, has]

/-- A loop fails as the first of its steps does that fails. -/
theorem mapM_eq_error {e : ε} : as.mapM f = .error e ↔
    ∃ before a after, as = before ++ a :: after ∧ (∀ x ∈ before, ∃ b, f x = .ok b) ∧ f a = .error e := by
  induction as with
  | nil => simp [pure, Except.pure]
  | cons a as ih =>
    have hstep : (a :: as).mapM f = .error e ↔
        f a = .error e ∨ (∃ b, f a = .ok b) ∧ as.mapM f = .error e := by
      rw [List.mapM_cons]
      cases f a with
      | error e' => simp [bind, Except.bind]
      | ok b => cases as.mapM f <;> simp [bind, Except.bind, pure, Except.pure]
    rw [hstep, ih]
    constructor
    · rintro (ha | ⟨ha, before, x, after, rfl, hbefore, hx⟩)
      · exact ⟨[], a, as, rfl, by simp, ha⟩
      · exact ⟨a :: before, x, after, rfl, by simpa using ⟨ha, hbefore⟩, hx⟩
    · rintro ⟨before, x, after, heq, hbefore, hx⟩
      cases before with
      | nil =>
        cases heq
        exact .inl hx
      | cons y before =>
        cases heq
        exact .inr ⟨hbefore a (by simp), before, x, after, rfl,
          fun z hz => hbefore z (by simp [hz]), hx⟩

end Loops

namespace Registry

variable {r : Registry} {active : Store} {d : Declaration}

/-- There is a factory for a declaration, and it makes this filter. -/
def Makes (r : Registry) (active : Store) (d : Declaration) (f : Filter) : Prop :=
  ∃ make, r.factories.get? d.id = some make ∧ make d active = .ok f

/-- Why there is no filter for a declaration: there is no factory, or the factory fails. -/
inductive Refuses (r : Registry) (active : Store) (d : Declaration) : Failure → Prop
  | unknown : r.factories.get? d.id = none → Refuses r active d (.unknownFilter d.id)
  | failed {make : Factory} {cause : Failure} : r.factories.get? d.id = some make →
      make d active = .error cause → Refuses r active d cause

theorem filter_eq_ok {f : Filter} : r.filter active d = .ok f ↔ r.Makes active d f := by
  unfold filter Makes
  cases r.factories.get? d.id <;> simp

theorem filter_eq_error {cause : Failure} :
    r.filter active d = .error cause ↔ r.Refuses active d cause := by
  constructor
  · intro h
    unfold filter at h
    split at h
    · next hnone =>
      cases h
      exact .unknown hnone
    · next make hmake => exact .failed hmake h
  · rintro (hnone | ⟨hmake, hcause⟩)
    · rw [filter, hnone]
    · rw [filter, hmake, ← hcause]

theorem chain_eq_ok {o : Overlay} {fs : List Filter} :
    r.chain o active = .ok fs ↔ List.Forall₂ (r.Makes active) o.enabled fs := by
  simp only [chain, mapM_eq_ok, filter_eq_ok]

theorem chain_eq_error {o : Overlay} {cause : Failure} : r.chain o active = .error cause ↔
    ∃ before d after, o.enabled = before ++ d :: after ∧ (∀ e ∈ before, ∃ f, r.Makes active e f) ∧
      r.Refuses active d cause := by
  simp only [chain, mapM_eq_error, filter_eq_ok, filter_eq_error]

/-- The order in which filters are declared does not count, and neither do those that are not enabled. The
check passes exactly the overlays in which ids are not blank and distinct. In such an overlay the enabled
declarations stand in one order, strictly by weight and id, and so do those of every overlay that has the
same ones: it has the same chain, or fails for the same cause. The chain has a filter for each of them in
this order, and fails as the first of them does for which there is no factory or the factory fails. -/
theorem chain_reordered (o : Overlay) :
    (o.check = .ok () ↔ o.Valid) ∧
    (o.Valid →
      o.enabled.Perm o.asDeclared ∧ o.enabled.Pairwise Overlay.Before ∧
      (∀ p : Overlay, p.declarations.Perm o.declarations →
        p.Valid ∧ p.asDeclared.Perm o.asDeclared) ∧
      ∀ p : Overlay, p.asDeclared.Perm o.asDeclared → p.enabled = o.enabled ∧
        ∀ (r : Registry) (active : Store), r.chain p active = r.chain o active ∧
          ∀ mark base, r.wrap mark base p active = r.wrap mark base o active) ∧
    ∀ (r : Registry) (active : Store),
      (∀ fs, r.chain o active = .ok fs ↔ List.Forall₂ (r.Makes active) o.enabled fs) ∧
      ∀ cause, r.chain o active = .error cause ↔ ∃ before d after, o.enabled = before ++ d :: after ∧
        (∀ e ∈ before, ∃ f, r.Makes active e f) ∧ r.Refuses active d cause := by
  refine ⟨Overlay.check_eq_ok, fun h => ?_, fun r active => ⟨fun _ => chain_eq_ok, fun _ => chain_eq_error⟩⟩
  have hdistinct : o.asDeclared.Pairwise (·.id ≠ ·.id) := h.distinct.filter _
  refine ⟨Overlay.perm_enabled o, Overlay.pairwise_enabled hdistinct, fun p hp => ?_, fun p hp => ?_⟩
  · exact ⟨h.of_perm hp, hp.filter _⟩
  · have henabled : p.enabled = o.enabled := Overlay.enabled_eq_of_perm hdistinct hp
    have hchain : ∀ (r : Registry) (active : Store), r.chain p active = r.chain o active := by
      intro r active
      rw [chain, chain, henabled]
    exact ⟨henabled, fun r active => ⟨hchain r active, fun mark base => by rw [wrap, wrap, hchain]⟩⟩

/-- Weights at both ends of their range, two declarations of one weight, and one that is not enabled. There
is no factory for the third one in the order, nor for the last one. -/
theorem chain_reordered_extremes :
    let zeta : Declaration := ⟨"zeta", -2147483648, true, ∅⟩
    let alpha : Declaration := ⟨"alpha", 10, true, ∅⟩
    let beta : Declaration := ⟨"beta", 10, true, ∅⟩
    let omega : Declaration := ⟨"omega", 2147483647, true, ∅⟩
    let unused : Declaration := ⟨"unused", -100, false, ∅⟩
    let o : Overlay := ⟨[omega, beta, unused, alpha, zeta]⟩
    let p : Overlay := ⟨[zeta, alpha, beta, omega]⟩
    let r : Registry := (empty.register "alpha" ignoreFactory).register "zeta" ignoreFactory
    o.check = .ok () ∧ p.asDeclared.Perm o.asDeclared ∧ p.enabled = o.enabled ∧
      o.enabled = [zeta, alpha, beta, omega] ∧
      ∀ active, r.chain p active = .error (.unknownFilter "beta") := by
  intro zeta alpha beta omega unused o p r
  have hcheck : o.check = .ok () := by decide +kernel
  have hperm : p.asDeclared.Perm o.asDeclared := List.reverse_perm [omega, beta, alpha, zeta]
  obtain ⟨hvalid, hsame, hchain⟩ := chain_reordered o
  obtain ⟨-, -, -, hsame⟩ := hsame (hvalid.mp hcheck)
  obtain ⟨henabled, hsame⟩ := hsame p hperm
  have hsorted : p.enabled = [zeta, alpha] ++ beta :: [omega] :=
    List.mergeSort_of_pairwise (by decide +kernel : [zeta, alpha, beta, omega].Pairwise _)
  have horder : o.enabled = [zeta, alpha] ++ beta :: [omega] := henabled.symm.trans hsorted
  refine ⟨hcheck, hperm, henabled, horder, fun active => ?_⟩
  have hmade : ∀ e ∈ [zeta, alpha], ∃ f, r.Makes active e f := by
    simp only [List.forall_mem_cons, List.not_mem_nil, false_imp_iff, implies_true, and_true]
    exact ⟨⟨_, ignoreFactory, rfl, rfl⟩, ⟨_, ignoreFactory, rfl, rfl⟩⟩
  rw [(hsame r active).1]
  exact ((hchain r active).2 _).mpr ⟨_, beta, _, horder, hmade, .unknown rfl⟩

end Registry

end LayeredConfig
