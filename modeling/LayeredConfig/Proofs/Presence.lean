import LayeredConfig.Proofs.Layer
/-!
# Which documents a layer has

A layer has the documents of the wrapped shelf, and those of the active shelf that are ignored
(`Layer.present`). Asking for a document, listing names and reading many documents agree on that
(`Layer.presence_agrees`). Reading one document does so with one exception: an ignored document that the
active shelf lacks is not read, though it is there, and is read among others.
-/

namespace LayeredConfig

namespace Ignore.Patterns

variable (p : Patterns) (name : String)

/-- The patterns without those that are about keys. -/
def withoutKeys : Patterns where
  rules := p.rules.filter fun r =>
    match r.2 with
    | .key .. => false
    | _ => true

theorem exempts_withoutKeys : p.withoutKeys.exempts name = p.exempts name := by
  rw [exempts, exempts, withoutKeys, List.any_filter]
  congr 1
  funext r
  cases r.2 <;> rfl

/-- Which documents are ignored does not depend on patterns about keys. -/
theorem ignores_withoutKeys : p.withoutKeys.ignores name = p.ignores name := by
  rw [ignores, ignores, exempts_withoutKeys, withoutKeys, List.any_filter]
  congr 2
  funext r
  cases r.2 <;> rfl

theorem keys_withoutKeys : p.withoutKeys.keys name = [] := by
  unfold keys
  split
  · rfl
  · rw [List.filterMap_eq_nil_iff.mpr]
    · rfl
    · intro r hr
      have hkept := (List.mem_filter.mp hr).2
      cases hrule : r.2 <;> simp_all

end Ignore.Patterns

namespace Layer

variable (x : Layer) {c name start : String} {a o : Option Document} {active base ds : Dict Document}
  {names : List String} {w : World}

/-! ## Names -/

/-- Whether there is a document of a name. -/
def present (active base : Dict Document) (name : String) : Bool :=
  base.contains name || x.ignores name && active.contains name

theorem mem_listed_all : name ∈ x.listed "" active base ↔ x.present active base name = true := by
  simp [mem_listed, present]

/-- The names that start with a text are among all names, in the same order. -/
theorem listed_eq_filter (start : String) (active base : Dict Document) :
    x.listed start active base = (x.listed "" active base).filter (·.startsWith start) := by
  have hmem : ∀ name, name ∈ x.listed start active base ↔
      name ∈ (x.listed "" active base).filter (·.startsWith start) := by
    intro name
    rw [List.mem_filter, mem_listed, mem_listed, and_comm]
    simp
  exact Name.eq_of_ascending (Name.pairwise_sortedUnique _) ((Name.pairwise_sortedUnique _).filter _) hmem

/-! ## Documents -/

/-- Whether a document is ignored that the wrapped shelf has and the active one lacks. -/
def uncovered (active base : Dict Document) (name : String) : Bool :=
  x.ignores name && base.contains name && !active.contains name

/-- A document is read among others, if not alone as well, and then as what the wrapped shelf has. -/
theorem replaced_of_merged {m : Option Document}
    (h : x.merged name (active.get? name) (base.get? name) = some m) :
    ∃ r, x.replaced name (active.get? name) (base.get? name) = some r ∧
      (x.uncovered active base name = true → r = none ∧ m = base.get? name) ∧
      (x.uncovered active base name = false → m = r) := by
  rw [uncovered, Dict.contains, Dict.contains]
  generalize active.get? name = a at h ⊢
  generalize base.get? name = o at h ⊢
  cases hig : x.ignores name with
  | true =>
    rw [x.merged_of_ignores hig, Option.some.injEq] at h
    refine ⟨a, x.replaced_of_ignores hig a o, ?_⟩
    subst h
    cases a <;> cases o <;> simp
  | false =>
    rw [x.merged_of_not_ignores hig] at h
    exact ⟨m, (x.replaced_of_not_ignores hig a o).trans h, by simp⟩

/-- A document cannot be read alone if it cannot be read among others. -/
theorem replaced_of_merged_none (h : x.merged name a o = none) : x.replaced name a o = none := by
  cases hig : x.ignores name with
  | true =>
    rw [x.merged_of_ignores hig] at h
    cases h
  | false =>
    rw [x.merged_of_not_ignores hig] at h
    rw [x.replaced_of_not_ignores hig, h]

/-- The documents that are read among others are those that are there. -/
theorem contains_of_mergedMany (h : x.mergedMany names active base = some ds) (name : String) :
    ds.contains name = (decide (name ∈ names) && x.present active base name) := by
  have hname := x.merged_of_mergedMany h name
  rw [Bool.eq_iff_iff, Dict.contains_iff, Bool.and_eq_true, decide_eq_true_iff, ← mem_listed_all]
  split at hname <;> rename_i hmem
  · rw [← Decidable.not_iff_not, not_and, not_not, not_mem_listed_iff, hname]
    simp [hmem]
  · simp [hname, hmem]

/-- Many documents are read unless one of them cannot be read. -/
theorem readMany_cases (names : List String) :
    (x.mergedMany names active base = none ∧
      ∃ name ∈ names, x.replaced name (active.get? name) (base.get? name) = none) ∨
    ∃ ds, x.mergedMany names active base = some ds := by
  by_cases hall : ∀ name ∈ names, x.merged name (active.get? name) (base.get? name) ≠ none
  · exact .inr (x.exists_mergedMany hall)
  · push Not at hall
    obtain ⟨name, hname, hnone⟩ := hall
    refine .inl ⟨?_, name, hname, x.replaced_of_merged_none hnone⟩
    cases hds : x.mergedMany names active base with
    | none => rfl
    | some ds =>
      have hmerged := x.merged_of_mergedMany hds name
      rw [if_pos hname, hnone] at hmerged
      cases hmerged

/-! ## Patterns about keys -/

/-- A layer without patterns about keys. -/
def withoutKeys : Layer := { x with patterns := x.patterns.withoutKeys }

theorem ignores_withoutKeys : x.withoutKeys.ignores = x.ignores := by
  funext name
  rw [ignores, ignores, withoutKeys, Ignore.Patterns.ignores_withoutKeys]

theorem present_withoutKeys : x.withoutKeys.present = x.present := by
  funext active base name
  rw [present, present, ignores_withoutKeys]

theorem listed_withoutKeys : x.withoutKeys.listed = x.listed := by
  funext start active base
  rw [listed, listed, ignores_withoutKeys]

theorem keys_withoutKeys (name : String) : x.withoutKeys.keys name = [] := by
  rw [keys, withoutKeys, Ignore.Patterns.keys_withoutKeys]
  split <;> rfl

/-- Without patterns about keys, every document can be read. -/
theorem exists_mergedMany_withoutKeys (names : List String) (active base : Dict Document) :
    ∃ ds, x.withoutKeys.mergedMany names active base = some ds := by
  apply exists_mergedMany
  intro name _
  cases hig : x.withoutKeys.ignores name with
  | true =>
    rw [merged_of_ignores _ hig]
    nofun
  | false =>
    rw [merged_of_not_ignores _ hig]
    unfold spliced
    rw [keys_withoutKeys]
    cases base.get? name <;> simp

/-! ## Operations of a collection -/

section Operations

variable (c : String) (w : World)

theorem contains_present (name : String) : (x.storage c).contains name w =
    .ok (x.present (w.documents x.active c) (w.documents x.base c) name) w := x.contains_eq c w name

/-- All names that are listed, from which those that start with a text are taken. -/
theorem list_all : ∃ all, (x.storage c).list "" w = .ok all w ∧
    (∀ name, name ∈ all ↔ x.present (w.documents x.active c) (w.documents x.base c) name = true) ∧
    ∀ start, (x.storage c).list start w = .ok (all.filter (·.startsWith start)) w := by
  refine ⟨_, x.list_eq c w "", fun name => x.mem_listed_all, fun start => ?_⟩
  rw [x.list_eq, listed_eq_filter]

/-- Many documents are read as one by one, but for those that are uncovered. -/
theorem readMany_reads (names : List String) :
    ((x.storage c).readMany names w = .error .crash w ∧
      ∃ name ∈ names, (x.storage c).read name w = .error .crash w) ∨
    ∃ ds, (x.storage c).readMany names w = .ok ds w ∧
      (∀ name, ds.contains name = (decide (name ∈ names) &&
        x.present (w.documents x.active c) (w.documents x.base c) name)) ∧
      ∀ name ∈ names, ∃ o, (x.storage c).read name w = .ok o w ∧
        (x.uncovered (w.documents x.active c) (w.documents x.base c) name = true →
          o = none ∧ ds.get? name = (w.documents x.base c).get? name) ∧
        (x.uncovered (w.documents x.active c) (w.documents x.base c) name = false →
          ds.get? name = o) := by
  simp only [x.readMany_eq, x.read_eq]
  rcases x.readMany_cases names with ⟨hnone, name, hname, hcrash⟩ | ⟨ds, hds⟩
  · refine .inl ⟨?_, name, hname, ?_⟩
    · rw [hnone]
      rfl
    · rw [hcrash]
      rfl
  · rw [hds]
    refine .inr ⟨ds, rfl, x.contains_of_mergedMany hds, fun name hname => ?_⟩
    have hmerged := x.merged_of_mergedMany hds name
    rw [if_pos hname] at hmerged
    obtain ⟨o, ho, hsame⟩ := x.replaced_of_merged hmerged
    rw [ho]
    exact ⟨o, rfl, hsame⟩

/-- Without patterns about keys, the same documents are there. -/
theorem withoutKeys_agrees :
    (∀ name, (x.withoutKeys.storage c).contains name w = (x.storage c).contains name w) ∧
    (∀ start, (x.withoutKeys.storage c).list start w = (x.storage c).list start w) ∧
    ∀ names ds, (x.storage c).readMany names w = .ok ds w →
      ∃ es, (x.withoutKeys.storage c).readMany names w = .ok es w ∧ es.keys = ds.keys := by
  refine ⟨fun name => ?_, fun start => ?_, fun names ds hds => ?_⟩
  · rw [x.withoutKeys.contains_present, x.contains_present, present_withoutKeys]
    rfl
  · rw [x.withoutKeys.list_eq, x.list_eq, listed_withoutKeys]
    rfl
  · rw [x.readMany_eq, Run.ofOption_eq_ok] at hds
    obtain ⟨es, hes⟩ := x.exists_mergedMany_withoutKeys names (w.documents x.active c)
      (w.documents x.base c)
    refine ⟨es, ?_, Name.eq_of_ascending es.pairwise_keys ds.pairwise_keys fun name => ?_⟩
    · rw [x.withoutKeys.readMany_eq]
      exact congrArg (Run.ofOption · w) hes
    · rw [Dict.mem_keys, Dict.mem_keys, x.withoutKeys.contains_of_mergedMany hes,
        x.contains_of_mergedMany hds.1, present_withoutKeys]

end Operations

/-! ## Views of presence -/

/-- Every collection of a layer has the documents of the wrapped shelf, and the ignored ones of the
active shelf: so say asking for a document, listing names and reading many documents, whatever the
patterns about keys. Reading one document gives what reading it among others gives, but for an ignored
document that the active shelf lacks: alone it is not read, and among others as it is in the wrapped
shelf. Many documents cannot be read only if one of them cannot. -/
theorem presence_agrees (x : Layer) (mark : Option Nat) {v : Store}
    (hv : (x.store mark Name.defaultCollection).Reaches v) (w : World) :
    let c := v.storage.collectionName
    let active := w.documents x.active c
    let base := w.documents x.base c
    (∀ name, v.storage.contains name w = .ok (x.present active base name) w) ∧
    (∃ all, v.storage.list "" w = .ok all w ∧
      (∀ name, name ∈ all ↔ x.present active base name = true) ∧
      ∀ start, v.storage.list start w = .ok (all.filter (·.startsWith start)) w) ∧
    (∀ names,
      (v.storage.readMany names w = .error .crash w ∧
        ∃ name ∈ names, v.storage.read name w = .error .crash w) ∨
      ∃ ds, v.storage.readMany names w = .ok ds w ∧
        (∀ name, ds.contains name = (decide (name ∈ names) && x.present active base name)) ∧
        ∀ name ∈ names, ∃ o, v.storage.read name w = .ok o w ∧
          (x.uncovered active base name = true → o = none ∧ ds.get? name = base.get? name) ∧
          (x.uncovered active base name = false → ds.get? name = o)) ∧
    let keyless := (x.withoutKeys.store mark c).storage
    (∀ name, keyless.contains name w = v.storage.contains name w) ∧
      (∀ start, keyless.list start w = v.storage.list start w) ∧
      ∀ names ds, v.storage.readMany names w = .ok ds w →
        ∃ es, keyless.readMany names w = .ok es w ∧ es.keys = ds.keys := by
  obtain ⟨mark', c, rfl⟩ := x.store_of_reaches hv
  exact ⟨x.contains_present c w, x.list_all c w, x.readMany_reads c w, x.withoutKeys_agrees c w⟩

/-- The settings of the site are ignored and the live site has none: they are there, and are read with
others, but not alone. -/
theorem presence_agrees_site :
    let v := site.store none Name.defaultCollection
    (site.store (some 0) Name.defaultCollection).Reaches v ∧
      v.storage.contains "system.site" siteWorld = .ok true siteWorld ∧
      v.storage.read "system.site" siteWorld = .ok none siteWorld ∧
      ∃ ds, v.storage.readMany ["system.site", "user.settings", "system.site"] siteWorld =
          .ok ds siteWorld ∧
        ds.get? "system.site" = (siteWorld.documents site.base "").get? "system.site" := by
  intro v
  have hv : (site.store (some 0) Name.defaultCollection).Reaches v :=
    .collection .self (site.collection_store _ siteWorld _ _)
  have hname : v.storage.collectionName = "" := rfl
  obtain ⟨hcontains, -, hreads, -⟩ := presence_agrees site (some 0) hv siteWorld
  simp only [hname] at hcontains hreads
  have hpresent : site.present (siteWorld.documents site.active "") (siteWorld.documents site.base "")
      "system.site" = true := by decide +kernel
  have huncovered : site.uncovered (siteWorld.documents site.active "")
      (siteWorld.documents site.base "") "system.site" = true := by decide +kernel
  have hmany : (site.mergedMany ["system.site", "user.settings", "system.site"]
      (siteWorld.documents site.active "") (siteWorld.documents site.base "")).isSome = true := by
    decide +kernel
  refine ⟨hv, hpresent ▸ hcontains "system.site", ?_⟩
  rcases hreads ["system.site", "user.settings", "system.site"] with ⟨hcrash, -⟩ | ⟨ds, hds, -, hread⟩
  · obtain ⟨ds, hds⟩ := Option.isSome_iff_exists.mp hmany
    have hok := site.readMany_eq "" siteWorld ["system.site", "user.settings", "system.site"]
    rw [hds] at hok
    cases hok.symm.trans hcrash
  · obtain ⟨o, ho, hdiffers, -⟩ := hread "system.site" (by simp)
    obtain ⟨rfl, hkept⟩ := hdiffers huncovered
    exact ⟨ho, ds, hds, hkept⟩

end Layer

end LayeredConfig
