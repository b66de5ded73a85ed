import LayeredConfig.Ignore.Filter
import LayeredConfig.Proofs.KeyPath
/-!
# Splicing

Splicing takes the values at some paths from an active document. `splice_spliced` says what comes
out, also where one path leads through the place of another. So splicing the outcome into the same
document once more gives the outcome (`splice_outcome`), and a document takes nothing new from itself
(`splice_self`).
-/

namespace LayeredConfig.Ignore

variable {active other : Option Document} {d r : Document} {p q : KeyPath} {paths : List KeyPath}

/-- The outcome has the values of the active document at some paths, and those of the document at
the paths apart from them. -/
structure Spliced (active : Option Document) (paths : List KeyPath) (d r : Document) : Prop where
  taken : ∀ p ∈ paths, r.at? p = active.bind (·.at? p)
  kept : ∀ q : KeyPath, (∀ p ∈ paths, Apart p.segments q.segments) → r.at? q = d.at? q

/-! ## One key -/

/-- What taking one key does. -/
theorem spliceKey_cases (h : spliceKey active d p = some r) :
    (∃ v, active.bind (·.at? p) = some v ∧ d.with? p v = some r) ∨
      active.bind (·.at? p) = none ∧ r = d.without p := by
  rw [spliceKey] at h
  split at h
  · rename_i v hv
    exact .inl ⟨v, hv, h⟩
  · rename_i hv
    exact .inr ⟨hv, (Option.some.inj h).symm⟩

theorem at?_spliceKey (hd : d.keyed) (h : spliceKey active d p = some r) :
    r.at? p = active.bind (·.at? p) := by
  rcases spliceKey_cases h with ⟨v, hv, hr⟩ | ⟨hv, rfl⟩
  · rw [hv, Document.at?_with? hr]
  · rw [hv, Document.at?_without hd]

theorem at?_spliceKey_of_apart (hd : d.keyed) (hpq : Apart p.segments q.segments)
    (h : spliceKey active d p = some r) : r.at? q = d.at? q := by
  rcases spliceKey_cases h with ⟨v, -, hr⟩ | ⟨-, rfl⟩
  · exact Document.at?_with?_of_apart hpq hr
  · exact Document.at?_without_of_apart hd hpq

/-- Taking a key that is as in the active document changes nothing. -/
theorem spliceKey_eq_self (hp : d.at? p = active.bind (·.at? p))
    (h : spliceKey active d p = some r) : r = d := by
  rcases spliceKey_cases h with ⟨v, hv, hr⟩ | ⟨hv, rfl⟩
  · exact Document.with?_at? (hp.trans hv) hr
  · exact Document.without_of_at? (hp.trans hv)

/-- A key that is as in the active document stays so when another one is taken. -/
theorem at?_spliceKey_of_eq (hd : d.keyed) (hq : d.at? q = active.bind (·.at? q))
    (h : spliceKey active d p = some r) : r.at? q = active.bind (·.at? q) := by
  by_cases hpq : p.segments <+: q.segments
  · -- The new value at `p` is the active one, and it holds the value at `q`.
    obtain ⟨rest, -, hat⟩ := Document.at?_of_prefix hpq
    rw [hat r, at?_spliceKey hd h]
    cases active with
    | none => rfl
    | some a => exact (hat a).symm
  by_cases hqp : q.segments <+: p.segments
  · -- The value at `q` is the active one, and it holds the value at `p`, which therefore stays.
    obtain ⟨rest, -, hat⟩ := Document.at?_of_prefix hqp
    have hp : d.at? p = active.bind (·.at? p) := by
      rw [hat d, hq]
      cases active with
      | none => rfl
      | some a => exact (hat a).symm
    rwa [spliceKey_eq_self hp h]
  · rw [at?_spliceKey_of_apart hd ⟨hpq, hqp⟩ h, hq]

theorem keyed_spliceKey (ha : ∀ a ∈ active, a.keyed) (hd : d.keyed)
    (h : spliceKey active d p = some r) : r.keyed := by
  rcases spliceKey_cases h with ⟨v, hv, hr⟩ | ⟨-, rfl⟩
  · obtain ⟨a, haa, hav⟩ := Option.bind_eq_some_iff.mp hv
    exact Document.keyed_with? hd (Document.keyed_at? (ha a haa) hav) hr
  · exact Document.keyed_without hd

/-! ## Many keys -/

theorem splice_cons :
    splice active (p :: paths) d = (spliceKey active d p).bind (splice active paths) := rfl

@[simp] theorem splice_nil : splice active [] d = some d := rfl

/-- Keys that are as in the active document stay so, and those that are taken become so. -/
theorem at?_splice (taken : List KeyPath) (ha : ∀ a ∈ active, a.keyed) (hd : d.keyed)
    (htaken : ∀ q ∈ taken, d.at? q = active.bind (·.at? q)) (h : splice active paths d = some r) :
    ∀ q ∈ taken ++ paths, r.at? q = active.bind (·.at? q) := by
  induction paths generalizing d taken with
  | nil =>
    rw [splice_nil, Option.some.injEq] at h
    simpa [← h] using htaken
  | cons p paths ih =>
    obtain ⟨e, he, hr⟩ := Option.bind_eq_some_iff.mp (splice_cons ▸ h)
    rw [List.append_cons]
    refine ih (taken ++ [p]) (keyed_spliceKey ha hd he) (fun q hq => ?_) hr
    rcases List.mem_append.mp hq with hq | hq
    · exact at?_spliceKey_of_eq hd (htaken q hq) he
    · rw [List.mem_singleton.mp hq]
      exact at?_spliceKey hd he

/-- Splicing gives the values of the active document at all paths, and keeps all others. -/
theorem splice_spliced (ha : ∀ a ∈ active, a.keyed) (hd : d.keyed)
    (h : splice active paths d = some r) : Spliced active paths d r where
  taken p hp := at?_splice [] ha hd (by simp) h p hp
  kept q hq := by
    induction paths generalizing d with
    | nil =>
      rw [splice_nil, Option.some.injEq] at h
      rw [h]
    | cons p paths ih =>
      obtain ⟨e, he, hr⟩ := Option.bind_eq_some_iff.mp (splice_cons ▸ h)
      rw [ih (keyed_spliceKey ha hd he) hr fun p hp => hq p (by simp [hp]),
        at?_spliceKey_of_apart hd (hq p (by simp)) he]

/-- Only the values at the paths count of an active document. -/
theorem splice_congr (h : ∀ p ∈ paths, active.bind (·.at? p) = other.bind (·.at? p)) :
    splice active paths d = splice other paths d := by
  induction paths generalizing d with
  | nil => rfl
  | cons p paths ih =>
    have hkey : spliceKey active d p = spliceKey other d p := by
      rw [spliceKey, spliceKey, h p (by simp)]
    rw [splice_cons, splice_cons, hkey]
    exact congrArg _ (funext fun e => ih fun p hp => h p (by simp [hp]))

/-- Splicing the outcome into the document gives the outcome once more. -/
theorem splice_outcome (ha : ∀ a ∈ active, a.keyed) (hd : d.keyed)
    (h : splice active paths d = some r) : splice (some r) paths d = some r :=
  (splice_congr (splice_spliced ha hd h).taken).trans h

/-- Where all paths are as in the active document, nothing is changed. -/
theorem splice_eq_self (hpaths : ∀ p ∈ paths, d.at? p = active.bind (·.at? p))
    (h : splice active paths d = some r) : r = d := by
  induction paths with
  | nil => exact (Option.some.inj h).symm
  | cons p paths ih =>
    obtain ⟨e, he, hr⟩ := Option.bind_eq_some_iff.mp (splice_cons ▸ h)
    rw [spliceKey_eq_self (hpaths p (by simp)) he] at hr
    exact ih (fun q hq => hpaths q (by simp [hq])) hr

/-- A document takes nothing new from itself. -/
theorem splice_self (h : splice (some d) paths d = some r) : r = d :=
  splice_eq_self (fun _ _ => rfl) h

end LayeredConfig.Ignore
