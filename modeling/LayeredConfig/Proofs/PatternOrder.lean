import LayeredConfig.Proofs.Dialogue
import LayeredConfig.Proofs.Layer
import LayeredConfig.Proofs.SpliceOrder
/-!
# The order of ignore patterns

Of the texts of ignore patterns it counts only which they are, not their order, nor whether one is
repeated, nor blank ones (`Patterns.ofTexts?_rules`). The order of ignored keys shows in the order of
entries of a document, and in nothing else: a layer and one with the patterns in another order keep
documents that match (`Layer.Likened`), and every dialogue in which neither crashes has the same replies
in both (`Layer.transcript_reordered`).
-/

namespace LayeredConfig

namespace Ignore

variable {texts others : List String} {p q : Patterns} {name : String}

/-! ## Patterns -/

/-- The texts that count as patterns. -/
def entries (texts : List String) : List String := (texts.map Text.trim).filter (! ·.isEmpty)

theorem mem_of_mapM {ε α β : Type} {f : α → Except ε β} {as : List α} {bs : List β}
    (h : as.mapM f = .ok bs) (b : β) : b ∈ bs ↔ ∃ a ∈ as, f a = .ok b := by
  induction as generalizing bs with
  | nil =>
    rw [List.mapM_nil] at h
    cases h
    simp
  | cons a as ih =>
    rw [List.mapM_cons] at h
    cases ha : f a with
    | error e =>
      rw [ha] at h
      cases h
    | ok c =>
      rw [ha] at h
      cases has : as.mapM f with
      | error e =>
        rw [has] at h
        cases h
      | ok cs =>
        rw [has] at h
        cases h
        simp [ih has, ha, eq_comm]

/-- The rules of some texts are what those say that count. -/
theorem Patterns.ofTexts?_rules (h : Patterns.ofTexts? texts = .ok p) (r : String × Rule) :
    r ∈ p.rules ↔ r.1 ∈ entries texts ∧ Rule.ofText? r.1 = .ok r.2 := by
  rw [Patterns.ofTexts?] at h
  cases hrules : (entries texts).mapM fun text => (Rule.ofText? text).map (text, ·) with
  | error e =>
    rw [entries] at hrules
    simp only [hrules] at h
    cases h
  | ok rules =>
    rw [entries] at hrules
    simp only [hrules] at h
    cases h
    rw [mem_of_mapM hrules]
    constructor
    · rintro ⟨text, htext, hr⟩
      cases hrule : Rule.ofText? text with
      | error e =>
        rw [hrule] at hr
        cases hr
      | ok rule =>
        rw [hrule] at hr
        cases hr
        exact ⟨htext, hrule⟩
    · rintro ⟨htext, hrule⟩
      refine ⟨r.1, htext, ?_⟩
      rw [hrule]
      rfl

namespace Patterns

/-- Two lists of patterns say the same. -/
def Alike (p q : Patterns) : Prop := ∀ r, r ∈ p.rules ↔ r ∈ q.rules

theorem alike_of_entries (hp : ofTexts? texts = .ok p) (hq : ofTexts? others = .ok q)
    (h : ∀ text, text ∈ entries texts ↔ text ∈ entries others) : p.Alike q := by
  intro r
  rw [ofTexts?_rules hp, ofTexts?_rules hq, h]

theorem Alike.any_eq (h : p.Alike q) (f : String × Rule → Bool) : p.rules.any f = q.rules.any f := by
  rw [Bool.eq_iff_iff, List.any_eq_true, List.any_eq_true]
  simp only [h _]

theorem Alike.ignores_eq (h : p.Alike q) : p.ignores = q.ignores := by
  funext name
  rw [ignores, ignores, exempts, exempts, h.any_eq, h.any_eq]

theorem Alike.mem_keys (h : p.Alike q) (path : KeyPath) : path ∈ p.keys name ↔ path ∈ q.keys name := by
  have hexempts : p.exempts name = q.exempts name := h.any_eq _
  rw [keys, keys, hexempts]
  split
  · rfl
  · rw [List.mem_eraseDups, List.mem_eraseDups, List.mem_filterMap, List.mem_filterMap]
    simp only [h _]

end Patterns

end Ignore

/-! ## Documents that match -/

/-- Documents that are the same but for the order of entries. No mapping has a key twice. -/
structure Document.Matching (d e : Document) : Prop where
  left : d.keyed = true
  right : e.keyed = true
  like : d.Like e

namespace Document

variable {d e : Document}

theorem Matching.refl (hd : d.keyed = true) : d.Matching d := ⟨hd, hd, .refl d⟩

theorem Matching.same (h : d.Matching e) : d.same e = true := same_of_like h.left h.right h.like

theorem same_of_matching {o o' : Option Document} (h : Option.Rel Matching o o') :
    Option.Rel (fun d e => d.same e = true) o o' := by
  cases h with
  | none => exact .none
  | some h => exact .some h.same

theorem Matching.isEmpty_eq (h : d.Matching e) : d.isEmpty = e.isEmpty := by
  rw [Bool.eq_iff_iff, Dict.isEmpty_iff, Dict.isEmpty_iff]
  exact forall_congr' fun name => eq_none_iff_of_rel (h.like.get? name)

theorem matching_refl {o : Option Document} (h : ∀ d ∈ o, d.keyed = true) :
    Option.Rel Matching o o := by
  cases o with
  | none => exact .none
  | some d => exact .some (.refl (h d rfl))

/-- Maps with documents that match have the same names. -/
theorem contains_eq_of_matching {ds es : Dict Document} {name : String}
    (h : Option.Rel Matching (ds.get? name) (es.get? name)) : ds.contains name = es.contains name := by
  rw [Bool.eq_iff_iff, Dict.contains_iff, Dict.contains_iff, ne_eq, ne_eq, eq_none_iff_of_rel h]

end Document

/-! ## Two layers -/

namespace Layer

open World Document

variable {x : Layer} {p : Ignore.Patterns} {a o o' r r' : Option Document} {c name : String}
  {A B B' : Dict Document} {u v : World}

/-- A layer with other patterns. -/
def under (x : Layer) (p : Ignore.Patterns) : Layer := { x with patterns := p }

theorem under_base : (x.under p).base = x.base := rfl

theorem under_active : (x.under p).active = x.active := rfl

section Reading

variable (hp : x.patterns.Alike p)

include hp

theorem ignores_under : (x.under p).ignores = x.ignores := by
  funext name
  rw [ignores, ignores, under, hp.ignores_eq]

theorem mem_keys_under (path : KeyPath) : path ∈ x.keys name ↔ path ∈ (x.under p).keys name := by
  rw [keys, keys, under]
  simp only
  split
  · rfl
  · exact hp.mem_keys path

/-- Documents that match are spliced to such documents. -/
theorem spliced_under (ha : ∀ d ∈ a, d.keyed = true) (ho : Option.Rel Matching o o')
    (hr : x.spliced name a o = some r) (hr' : (x.under p).spliced name a o' = some r') :
    Option.Rel Matching r r' := by
  cases ho with
  | none =>
    cases hr
    cases hr'
    exact .none
  | @some d e hde =>
    obtain ⟨s, hs, rfl⟩ := Option.map_eq_some_iff.mp hr
    obtain ⟨s', hs', rfl⟩ := Option.map_eq_some_iff.mp hr'
    have hlike := Ignore.splice_like ha hde.left hde.right hde.like (mem_keys_under hp) hs hs'
    exact .some ⟨Ignore.keyed_splice ha hde.left hs, Ignore.keyed_splice ha hde.right hs', hlike⟩

theorem replaced_under (ha : ∀ d ∈ a, d.keyed = true) (ho : Option.Rel Matching o o')
    (hr : x.replaced name a o = some r) (hr' : (x.under p).replaced name a o' = some r') :
    Option.Rel Matching r r' := by
  cases hig : x.ignores name with
  | true =>
    rw [x.replaced_of_ignores hig] at hr
    rw [(x.under p).replaced_of_ignores (by rw [ignores_under hp, hig])] at hr'
    cases hr
    cases hr'
    exact matching_refl ha
  | false =>
    rw [x.replaced_of_not_ignores hig] at hr
    rw [(x.under p).replaced_of_not_ignores (by rw [ignores_under hp, hig])] at hr'
    exact spliced_under hp ha ho hr hr'

theorem merged_under (ha : ∀ d ∈ a, d.keyed = true) (ho : Option.Rel Matching o o')
    (hr : x.merged name a o = some r) (hr' : (x.under p).merged name a o' = some r') :
    Option.Rel Matching r r' := by
  cases hig : x.ignores name with
  | true =>
    rw [x.merged_of_ignores hig] at hr
    rw [(x.under p).merged_of_ignores (by rw [ignores_under hp, hig])] at hr'
    cases hr
    cases hr'
    cases a with
    | none => exact ho
    | some d => exact matching_refl ha
  | false =>
    rw [x.merged_of_not_ignores hig] at hr
    rw [(x.under p).merged_of_not_ignores (by rw [ignores_under hp, hig])] at hr'
    exact spliced_under hp ha ho hr hr'

theorem mergedMany_under {names : List String} {ds ds' : Dict Document}
    (hA : ∀ name, ∀ d ∈ A.get? name, d.keyed = true)
    (hB : ∀ name, Option.Rel Matching (B.get? name) (B'.get? name))
    (h : x.mergedMany names A B = some ds) (h' : (x.under p).mergedMany names A B' = some ds')
    (name : String) : Option.Rel Matching (ds.get? name) (ds'.get? name) := by
  have hname := x.merged_of_mergedMany h name
  have hname' := (x.under p).merged_of_mergedMany h' name
  split at hname
  · next hmem =>
    rw [if_pos hmem] at hname'
    exact merged_under hp (hA name) (hB name) hname hname'
  · next hmem =>
    rw [if_neg hmem] at hname'
    rw [hname, hname']
    exact .none

theorem listed_under (hB : ∀ name, Option.Rel Matching (B.get? name) (B'.get? name)) (start : String) :
    (x.under p).listed start A B' = x.listed start A B := by
  rw [listed, listed, ignores_under hp, Dict.keys_eq_of_rel hB]

end Reading

/-! ## Two worlds -/

/-- The worlds of a layer and of one with other patterns: the active shelves are equal, and the documents
of the wrapped shelves match. -/
structure Likened (x : Layer) (u v : World) : Prop where
  active : u.shelves.get x.active = v.shelves.get x.active
  keyed : ∀ c name, ∀ d ∈ (u.documents x.active c).get? name, d.keyed = true
  base : ∀ c name, Option.Rel Matching ((u.documents x.base c).get? name)
    ((v.documents x.base c).get? name)

theorem Likened.active_eq (h : x.Likened u v) (c : String) :
    v.documents x.active c = u.documents x.active c := by
  rw [World.documents, World.documents, h.active]

/-- What is left when one collection of the wrapped shelf was changed in both worlds. -/
theorem Likened.changed {u' v' : World} (h : x.Likened u v) (hne : x.base ≠ x.active)
    (hu : OnlyAt x.base c u u') (hv : OnlyAt x.base c v v')
    (hc : ∀ name, Option.Rel Matching ((u'.documents x.base c).get? name)
      ((v'.documents x.base c).get? name)) : x.Likened u' v' where
  active := by rw [hu.shelves _ (Ne.symm hne), hv.shelves _ (Ne.symm hne), h.active]
  keyed d name := by
    rw [hu.toOnlyOn.documents_of_ne (Ne.symm hne)]
    exact h.keyed d name
  base d name := by
    by_cases hd : d = c
    · subst hd
      exact hc name
    · rw [hu.collections d hd, hv.collections d hd]
      exact h.base d name

/-- The same is done to one document of the wrapped shelf. -/
theorem Likened.sets {u' v' : World} (h : x.Likened u v) (hne : x.base ≠ x.active)
    (hu : Sets x.base c name o u u') (hv : Sets x.base c name o' v v') (ho : Option.Rel Matching o o') :
    x.Likened u' v' := by
  apply h.changed hne hu.only hv.only
  intro other
  by_cases hother : other = name
  · rw [hother, hu.here, hv.here]
    exact ho
  · rw [hu.others other hother, hv.others other hother]
    exact h.base c other

/-- What writing leaves matches, where what was to be written does. -/
theorem kept_under (hp : x.patterns.Alike p) (hr : Option.Rel Matching r r')
    (ho : Option.Rel Matching o o') :
    Option.Rel Matching (x.kept name r o) ((x.under p).kept name r' o') := by
  cases hr with
  | none =>
    rw [kept, kept, ignores_under hp, Option.filter_none]
    simp only
    split
    · exact .none
    · exact ho
  | @some d e hde =>
    cases hempty : d.isEmpty with
    | true =>
      have hempty' : e.isEmpty = true := hde.isEmpty_eq ▸ hempty
      rw [kept, kept, ignores_under hp, Option.filter_some_neg (by simp [hempty]),
        Option.filter_some_neg (by simp [hempty'])]
      simp only
      split
      · exact .none
      · exact ho
    | false =>
      have hempty' : e.isEmpty = false := hde.isEmpty_eq ▸ hempty
      rw [x.kept_of_not_isEmpty hempty, (x.under p).kept_of_not_isEmpty hempty']
      exact .some hde

/-- Two runs end with related answers, or stop for the same cause, unless one of them crashes. -/
inductive Concur (x : Layer) {α β : Type} (R : α → β → Prop) :
    EStateM.Result Halt World α → EStateM.Result Halt World β → Prop
  | ok {a : α} {b : β} {u v : World} : R a b → x.Likened u v → Concur x R (.ok a u) (.ok b v)
  | error {stop : Halt} {u v : World} : x.Likened u v → Concur x R (.error stop u) (.error stop v)
  | crash_left {u : World} {s : EStateM.Result Halt World β} : Concur x R (.error .crash u) s
  | crash_right {s : EStateM.Result Halt World α} {v : World} : Concur x R s (.error .crash v)

theorem Concur.map {α β α' β' : Type} {R : α → β → Prop} {S : α' → β' → Prop} {f : Run World α}
    {g : Run World β} (h : Concur x R (f u) (g v)) {i : α → α'} {j : β → β'}
    (hij : ∀ a b, R a b → S (i a) (j b)) : Concur x S ((i <$> f) u) ((j <$> g) v) := by
  generalize hf : f u = s at h
  generalize hg : g v = t at h
  cases h with
  | ok hab h =>
    rw [Run.map_ok hf, Run.map_ok hg]
    exact .ok (hij _ _ hab) h
  | error h =>
    rw [Run.map_error hf, Run.map_error hg]
    exact .error h
  | crash_left =>
    rw [Run.map_error hf]
    exact .crash_left
  | crash_right =>
    rw [Run.map_error hg]
    exact .crash_right

theorem Concur.ofOption {α β : Type} {R : α → β → Prop} {a : Option α} {b : Option β}
    (h : x.Likened u v) (hab : ∀ s t, a = some s → b = some t → R s t) :
    Concur x R (Run.ofOption a u) (Run.ofOption b v) := by
  cases a with
  | none => exact .crash_left
  | some s =>
    cases b with
    | none => exact .crash_right
    | some t => exact .ok (hab s t rfl rfl) h

/-! ## Calls -/

section Calls

variable (h : x.Likened u v)

include h

theorem ofExcept_concur {α : Type} (e : Except Failure α) :
    Concur x Eq (World.onShelf x.base (.ofExcept e) u) (World.onShelf x.base (.ofExcept e) v) := by
  rw [Store.onShelf_ofExcept, Store.onShelf_ofExcept]
  cases e with
  | ok a => exact .ok rfl h
  | error f => exact .error h

variable (hp : x.patterns.Alike p)

include hp

theorem contains_concur (c name : String) :
    Concur x Eq ((x.storage c).contains name u) (((x.under p).storage c).contains name v) := by
  rw [x.contains_eq, (x.under p).contains_eq, ignores_under hp, under_base, under_active,
    h.active_eq c, contains_eq_of_matching (h.base c name)]
  exact .ok rfl h

theorem read_concur (c name : String) : Concur x (Option.Rel Matching)
    ((x.storage c).read name u) (((x.under p).storage c).read name v) := by
  rw [x.read_eq, (x.under p).read_eq, under_base, under_active, h.active_eq c]
  apply Concur.ofOption h
  intro r r' hr hr'
  exact replaced_under hp (h.keyed c name) (h.base c name) hr hr'

theorem readMany_concur (c : String) (names : List String) :
    Concur x (fun ds es => ∀ name, Option.Rel Matching (ds.get? name) (es.get? name))
      ((x.storage c).readMany names u) (((x.under p).storage c).readMany names v) := by
  rw [x.readMany_eq, (x.under p).readMany_eq, under_base, under_active, h.active_eq c]
  apply Concur.ofOption h
  intro ds ds' hds hds'
  exact mergedMany_under hp (h.keyed c) (h.base c) hds hds'

theorem list_concur (c start : String) :
    Concur x Eq ((x.storage c).list start u) (((x.under p).storage c).list start v) := by
  rw [x.list_eq, (x.under p).list_eq, under_base, under_active, h.active_eq c,
    listed_under hp (h.base c)]
  exact .ok rfl h

omit hp in
theorem collectionNames_concur (c : String) :
    Concur x Eq ((x.storage c).collectionNames u) (((x.under p).storage c).collectionNames v) := by
  have hbase : (u.shelves.get x.base).named = (v.shelves.get x.base).named := by
    apply Name.eq_of_ascending ((Dict.pairwise_keys _).filter _) ((Dict.pairwise_keys _).filter _)
    intro d
    show d ∈ (u.shelves.get x.base).named ↔ d ∈ (v.shelves.get x.base).named
    rw [Shelf.mem_named, Shelf.mem_named, Dict.isEmpty_iff, Dict.isEmpty_iff]
    have hnone : ∀ name, ((u.shelves.get x.base).documents d).get? name = none ↔
        ((v.shelves.get x.base).documents d).get? name = none :=
      fun name => eq_none_iff_of_rel (h.base d name)
    simp only [hnone]
  rw [x.collectionNames_eq, (x.under p).collectionNames_eq, named, named, under_base, under_active,
    hbase, h.active]
  exact .ok rfl h

variable (hne : x.base ≠ x.active)

include hne

theorem write_concur (c name : String) {d : Document} (hd : d.keyed = true) :
    Concur x Eq ((x.storage c).write name d u) (((x.under p).storage c).write name d v) := by
  rw [x.write_eq, (x.under p).write_eq, under_active, h.active_eq c]
  cases hr : x.replaced name ((u.documents x.active c).get? name) (some d) with
  | none => exact .crash_left
  | some r =>
    cases hr' : (x.under p).replaced name ((u.documents x.active c).get? name) (some d) with
    | none => exact .crash_right
    | some r' =>
      have hpayload : Option.Rel Matching r r' :=
        replaced_under hp (h.keyed c name) (.some (.refl hd)) hr hr'
      exact .ok rfl (h.sets hne (x.wrote_sets c u name r) ((x.under p).wrote_sets c v name r')
        (kept_under hp hpayload (h.base c name)))

theorem delete_concur (c name : String) :
    Concur x Eq ((x.storage c).delete name u) (((x.under p).storage c).delete name v) := by
  rw [x.delete_eq, (x.under p).delete_eq, ignores_under hp, under_base]
  split
  · exact .ok rfl h
  · refine .ok (contains_eq_of_matching (h.base c name)) ?_
    exact h.sets hne (.erase u x.base c name) (.erase v x.base c name) .none

theorem rename_concur (c old new : String) :
    Concur x Eq ((x.storage c).rename old new u) (((x.under p).storage c).rename old new v) := by
  rw [x.rename_eq, (x.under p).rename_eq, ignores_under hp, under_base, Store.rename_shelf,
    Store.rename_shelf]
  split
  · exact .ok rfl h
  · have hold := h.base c old
    generalize (u.documents x.base c).get? old = o at hold
    generalize (v.documents x.base c).get? old = o' at hold
    cases hold with
    | none => exact .ok rfl h
    | some hde =>
      refine .ok rfl (h.changed hne (.put u x.base c _) (.put v x.base c _) fun name => ?_)
      rw [documents_put, documents_put, if_pos ⟨rfl, rfl⟩, if_pos ⟨rfl, rfl⟩, Dict.get?_insert,
        Dict.get?_insert, Dict.get?_erase, Dict.get?_erase]
      split
      · exact .some hde
      · split
        · exact .none
        · exact h.base c name

theorem deleteAll_concur (c start : String) :
    Concur x Eq ((x.storage c).deleteAll start u) (((x.under p).storage c).deleteAll start v) := by
  obtain ⟨u', hrun, hu, hdocuments⟩ := x.deleteAll_documents c u start
  obtain ⟨v', hrun', hv, hdocuments'⟩ := (x.under p).deleteAll_documents c v start
  rw [hrun, hrun']
  refine .ok rfl (h.changed hne hu hv fun name => ?_)
  rw [under_base, ignores_under hp] at hdocuments'
  rw [hdocuments, hdocuments']
  split
  · exact .none
  · exact h.base c name

end Calls

end Layer

/-! ## Dialogues -/

/-- Whether no mapping in a document that is to be written has a key twice. -/
def Question.keyed : Question → Bool
  | .call (.write _ d) => d.keyed
  | _ => true

namespace Layer

open World Document

variable {x : Layer} {p : Ignore.Patterns} {u v : World}

theorem call_concur (h : x.Likened u v) (hp : x.patterns.Alike p) (hne : x.base ≠ x.active) (c : String)
    {k : Call} (hk : (Question.call k).keyed = true) :
    Concur x Answer.Same (k.run (x.storage c) u) (k.run ((x.under p).storage c) v) := by
  cases k with
  | contains name => exact (contains_concur h hp c name).map fun _ b hab => hab ▸ .truth b
  | read name => exact (read_concur h hp c name).map fun _ _ ho => .document (same_of_matching ho)
  | readMany names =>
    exact (readMany_concur h hp c names).map fun _ _ hds => .documents fun n => same_of_matching (hds n)
  | write name d => exact (write_concur h hp hne c name hk).map fun _ b hab => hab ▸ .truth b
  | delete name => exact (delete_concur h hp hne c name).map fun _ b hab => hab ▸ .truth b
  | rename old new => exact (rename_concur h hp hne c old new).map fun _ b hab => hab ▸ .truth b
  | list start => exact (list_concur h hp c start).map fun _ b hab => hab ▸ .names b
  | deleteAll start => exact (deleteAll_concur h hp hne c start).map fun _ b hab => hab ▸ .truth b
  | collectionNames => exact (collectionNames_concur h c).map fun _ b hab => hab ▸ .names b

/-- Views of the same collection of the two layers. -/
def SiblingView (x : Layer) (p : Ignore.Patterns) (s t : Store) : Prop :=
  ∃ mark mark' c, s = x.store mark c ∧ t = (x.under p).store mark' c

theorem Concur.alike {α β : Type} {R : α → β → Prop} {f : Run World α} {g : Run World β}
    (h : Concur x R (f u) (g v)) {i : α → Reply} {j : β → Reply} (hij : ∀ a b, R a b → (i a).Same (j b))
    (hf : ∀ s, ((fun a => (i a, ([] : List Store))) <$> f) u ≠ .error .crash s)
    (hg : ∀ s, ((fun a => (j a, ([] : List Store))) <$> g) v ≠ .error .crash s) :
    Session.Alike (x.SiblingView p) x.Likened Reply.Same (((fun a => (i a, ([] : List Store))) <$> f) u)
      (((fun a => (j a, ([] : List Store))) <$> g) v) := by
  generalize hs : f u = s at h
  generalize ht : g v = t at h
  cases h with
  | ok hab h =>
    rw [Run.map_ok hs, Run.map_ok ht]
    exact .ok (hij _ _ hab) .nil h
  | error h =>
    rw [Run.map_error hs, Run.map_error ht]
    exact .error h
  | crash_left => exact absurd (Run.map_error hs) (hf _)
  | crash_right => exact absurd (Run.map_error ht) (hg _)

theorem SiblingView.alike {s t : Store} (hviews : x.SiblingView p s t) (h : x.Likened u v)
    (hp : x.patterns.Alike p) (hne : x.base ≠ x.active) {q : Question} (hq : q.keyed = true)
    (hs : ∀ w, q.run s u ≠ .error .crash w) (ht : ∀ w, q.run t v ≠ .error .crash w) :
    Session.Alike (x.SiblingView p) x.Likened Reply.Same (q.run s u) (q.run t v) := by
  obtain ⟨mark, mark', c, rfl, rfl⟩ := hviews
  cases q with
  | call k => exact (call_concur h hp hne c hq).alike (fun _ _ => .answer) hs ht
  | collectionName => exact .ok (.text _) .nil h
  | encode d =>
    have hconcur : Concur x Eq ((x.storage c).encode d u) (((x.under p).storage c).encode d v) := by
      rw [x.encode_eq, (x.under p).encode_eq, Store.encode_shelf, Store.encode_shelf]
      exact ofExcept_concur h d.encode
    exact hconcur.alike (fun _ text hab => hab ▸ .text text) hs ht
  | decode text =>
    have hconcur : Concur x Eq ((x.storage c).decode text u) (((x.under p).storage c).decode text v) := by
      rw [x.decode_eq, (x.under p).decode_eq, Store.decode_shelf, Store.decode_shelf]
      exact ofExcept_concur h (Document.decode text)
    exact hconcur.alike (fun _ d hab => hab ▸ .document d) hs ht
  | collection name =>
    rw [Question.run, Question.run, Run.map_ok (x.collection_store c u mark name),
      Run.map_ok ((x.under p).collection_store c v mark' name)]
    exact .ok .opened (.cons ⟨none, none, name, rfl, rfl⟩ .nil) h

/-- Every dialogue with a layer that does not crash has the replies that it has with a layer whose patterns
are of the same texts, in whatever order and however often, if it does not crash with that either. At each
turn the wrapped shelves have the same documents. -/
theorem transcript_reordered {base active : Nat} {deactivated : Bool} {texts others : List String}
    {p q : Ignore.Patterns} (hp : Ignore.Patterns.ofTexts? texts = .ok p)
    (hq : Ignore.Patterns.ofTexts? others = .ok q)
    (htexts : ∀ text, text ∈ Ignore.entries texts ↔ text ∈ Ignore.entries others) (hne : base ≠ active)
    (mark mark' : Option Nat) (c : String) {w : World} (hbase : (w.shelves.get base).keyed = true)
    (hactive : (w.shelves.get active).keyed = true) {turns : List Turn}
    (hturns : ∀ k ∈ turns, k.question.keyed = true)
    (hcalm : ∀ e ∈ Session.transcript ⟨[store ⟨base, active, p, deactivated⟩ mark c], w⟩ turns,
      e.1 ≠ some (.error .crash))
    (hcalm' : ∀ e ∈ Session.transcript ⟨[store ⟨base, active, q, deactivated⟩ mark' c], w⟩ turns,
      e.1 ≠ some (.error .crash)) :
    List.Forall₂ (fun s t => Session.SameOutcome Reply.Same s.1 t.1 ∧ ∀ d name,
        Option.Rel (fun d e => d.same e = true) ((s.2.documents base d).get? name)
          ((t.2.documents base d).get? name))
      (Session.transcript ⟨[store ⟨base, active, p, deactivated⟩ mark c], w⟩ turns)
      (Session.transcript ⟨[store ⟨base, active, q, deactivated⟩ mark' c], w⟩ turns) := by
  let x : Layer := ⟨base, active, p, deactivated⟩
  have halike : x.patterns.Alike q := Ignore.Patterns.alike_of_entries hp hq htexts
  have hlikened : x.Likened w w := by
    refine ⟨rfl, fun d name e he => Shelf.keyed_of_get? hactive he, fun d name => ?_⟩
    exact matching_refl fun e he => Shelf.keyed_of_get? hbase he
  have hstart : Session.Related (x.SiblingView q) x.Likened ⟨[x.store mark c], w⟩
      ⟨[(x.under q).store mark' c], w⟩ := ⟨.cons ⟨mark, mark', c, rfl, rfl⟩ .nil, hlikened⟩
  have hmay : Session.Allows (fun _ k => k.keyed = true)
      (⟨[(x.under q).store mark' c], w⟩ : Session World Store) turns :=
    Session.allows_of_forall (fun k hk _ => hturns k hk) _
  have hrelated := Session.transcript_related_of_ne_crash
    (fun _ _ _ _ _ hviews hst hk hs ht => SiblingView.alike hviews hst halike hne hk hs ht)
    turns hstart hmay hcalm hcalm'
  apply hrelated.imp
  intro s t hst
  exact ⟨hst.1, fun d name => same_of_matching (hst.2.base d name)⟩

/-! ## Two orders -/

/-- Patterns with two ignored keys side by side. -/
def tidyTexts : List String := ["system.*", "user.*:mail.work", "user.*:mail.home", "~system.file"]

/-- The same patterns in another order, with a blank text among them, and one of them twice. -/
def strewnTexts : List String :=
  ["~system.file", "user.*:mail.home ", " ", "system.*", "user.*:mail.work", "system.*"]

/-- The patterns of some texts, or none. -/
def patternsOf (texts : List String) : Ignore.Patterns :=
  (Ignore.Patterns.ofTexts? texts).toOption.getD ⟨[]⟩

theorem ofTexts?_patternsOf (texts : List String)
    (h : (Ignore.Patterns.ofTexts? texts).toOption.isSome = true) :
    Ignore.Patterns.ofTexts? texts = .ok (patternsOf texts) := by
  rw [patternsOf]
  cases hp : Ignore.Patterns.ofTexts? texts with
  | ok p => rfl
  | error f =>
    rw [hp] at h
    cases h

/-- A site whose users have two mail addresses here, and none elsewhere. -/
def mailWorld : World :=
  .ofShelves
    (.ofDocuments (.ofList [("user.settings", texts [("role", "editor")])]))
    (.ofDocuments (.ofList [
      ("system.cron", texts [("interval", "daily")]),
      ("user.settings", .ofList [("mail", .mapping [
        (.string "work", .string "work@example.com"), (.string "home", .string "home@example.com")])])]))

/-- What is asked: the settings are written, with the keys of the addresses in the order of the patterns,
and read, and so are all documents. -/
def mailTurns : List Turn :=
  [⟨0, .call (.write "user.settings" (texts [("role", "guest")]))⟩, ⟨0, .call (.read "user.settings")⟩,
    ⟨0, .call (.list "")⟩, ⟨0, .call (.readMany ["system.cron", "user.settings"])⟩,
    ⟨0, .collection "language.de"⟩, ⟨1, .call (.delete "system.cron")⟩]

theorem transcript_reordered_mail :
    let before : Layer := ⟨0, 1, patternsOf tidyTexts, false⟩
    let after : Layer := ⟨0, 1, patternsOf strewnTexts, false⟩
    Ignore.Patterns.ofTexts? tidyTexts = .ok (patternsOf tidyTexts) ∧
      Ignore.Patterns.ofTexts? strewnTexts = .ok (patternsOf strewnTexts) ∧
      (∀ text, text ∈ Ignore.entries tidyTexts ↔ text ∈ Ignore.entries strewnTexts) ∧
      (mailWorld.shelves.get 0).keyed = true ∧ (mailWorld.shelves.get 1).keyed = true ∧
      (∀ k ∈ mailTurns, k.question.keyed = true) ∧
      (∀ e ∈ Session.transcript ⟨[before.store none ""], mailWorld⟩ mailTurns,
        e.1 ≠ some (.error .crash)) ∧
      (∀ e ∈ Session.transcript ⟨[after.store none ""], mailWorld⟩ mailTurns,
        e.1 ≠ some (.error .crash)) ∧
      List.Forall₂ (fun s t => Session.SameOutcome Reply.Same s.1 t.1 ∧ ∀ d name,
          Option.Rel (fun d e => d.same e = true) ((s.2.documents 0 d).get? name)
            ((t.2.documents 0 d).get? name))
        (Session.transcript ⟨[before.store none ""], mailWorld⟩ mailTurns)
        (Session.transcript ⟨[after.store none ""], mailWorld⟩ mailTurns) := by
  have htidy := ofTexts?_patternsOf tidyTexts (by decide +kernel)
  have hstrewn := ofTexts?_patternsOf strewnTexts (by decide +kernel)
  have htexts : ∀ text, text ∈ Ignore.entries tidyTexts ↔ text ∈ Ignore.entries strewnTexts := by
    have hleft : Ignore.entries tidyTexts =
        ["system.*", "user.*:mail.work", "user.*:mail.home", "~system.file"] := by decide +kernel
    have hright : Ignore.entries strewnTexts =
        ["~system.file", "user.*:mail.home", "system.*", "user.*:mail.work", "system.*"] := by
      decide +kernel
    intro text
    rw [hleft, hright]
    simp only [List.mem_cons, List.not_mem_nil, or_false]
    tauto
  have hbase : (mailWorld.shelves.get 0).keyed = true := by decide +kernel
  have hactive : (mailWorld.shelves.get 1).keyed = true := by decide +kernel
  have hturns : ∀ k ∈ mailTurns, k.question.keyed = true := by decide +kernel
  intro before after
  have hcalm : ∀ e ∈ Session.transcript ⟨[before.store none ""], mailWorld⟩ mailTurns,
      e.1 ≠ some (.error .crash) := by decide +kernel
  have hcalm' : ∀ e ∈ Session.transcript ⟨[after.store none ""], mailWorld⟩ mailTurns,
      e.1 ≠ some (.error .crash) := by decide +kernel
  exact ⟨htidy, hstrewn, htexts, hbase, hactive, hturns, hcalm, hcalm',
    transcript_reordered htidy hstrewn htexts (by decide) none none "" hbase hactive hturns hcalm hcalm'⟩

end Layer

end LayeredConfig
