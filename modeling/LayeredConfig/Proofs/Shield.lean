import LayeredConfig.Proofs.Layer
import LayeredConfig.Proofs.Session
/-!
# What callers cannot change

Callers of a layer never get to the active shelf, and an ignored document of the wrapped shelf stays
or becomes what the active shelf has, whatever they write, delete and rename. `call_guards` says so of
one call, and `run_shielded` of whole sessions.
-/

namespace LayeredConfig.Layer

open World

variable {x : Layer} {c name : String} {u v w : World}

/-- What callers may make of an ignored document: it stays, or the active one takes its place, and an
empty one leaves none. -/
def Guarded (a o o' : Option Document) : Prop := o' = o ∨ o' = a.filter (! ·.isEmpty)

theorem Guarded.trans {a o₁ o₂ o₃ : Option Document} (h : Guarded a o₁ o₂) (h' : Guarded a o₂ o₃) :
    Guarded a o₁ o₃ := by
  rcases h' with rfl | rfl
  · exact h
  · exact .inr rfl

/-- No more than one collection of the wrapped shelf was changed, with ignored documents guarded. -/
structure Guards (x : Layer) (c : String) (u v : World) : Prop where
  only : OnlyAt x.base c u v
  guarded : ∀ name, x.ignores name = true → Guarded ((u.documents x.active c).get? name)
    ((u.documents x.base c).get? name) ((v.documents x.base c).get? name)

theorem Guards.refl (x : Layer) (c : String) (w : World) : x.Guards c w w :=
  ⟨.refl x.base c w, fun _ _ => .inl rfl⟩

/-! ## One call -/

/-- A change of documents that are not ignored guards those that are. -/
theorem guards_of_spared (honly : OnlyAt x.base c u v)
    (h : ∀ name, x.ignores name = true →
      (v.documents x.base c).get? name = (u.documents x.base c).get? name) : x.Guards c u v :=
  ⟨honly, fun name hig => .inl (h name hig)⟩

theorem guards_of_sets {o : Option Document} (hig : x.ignores name = false)
    (h : Sets x.base c name o u v) : x.Guards c u v := by
  refine guards_of_spared h.only fun other hother => h.others other ?_
  rintro rfl
  rw [hig] at hother
  cases hother

/-- Under an ignored name, what the active shelf has is written. -/
theorem write_guards (name : String) (d : Document) :
    x.Guards c w (((x.storage c).write name d).after w) := by
  have hwrite := x.write_eq c w name d
  cases hp : x.replaced name ((w.documents x.active c).get? name) (some d) with
  | none =>
    rw [hp] at hwrite
    rw [Run.after_of_error hwrite]
    exact .refl x c w
  | some payload =>
    rw [hp] at hwrite
    rw [Run.after_of_ok hwrite]
    have hset := x.wrote_sets c w name payload
    cases hig : x.ignores name with
    | false => exact guards_of_sets hig hset
    | true =>
      rw [x.replaced_of_ignores hig, Option.some.injEq] at hp
      subst hp
      rw [x.kept_of_ignores hig] at hset
      refine ⟨hset.only, fun other _ => ?_⟩
      by_cases hne : other = name
      · subst hne
        exact .inr hset.here
      · exact .inl (hset.others other hne)

theorem delete_guards (name : String) : x.Guards c w (((x.storage c).delete name).after w) := by
  have hdelete := x.delete_eq c w name
  split at hdelete <;> rename_i hig <;> rw [Run.after_of_ok hdelete]
  · exact .refl x c w
  · exact guards_of_sets (by simpa using hig) (.erase w x.base c name)

theorem rename_guards (old new : String) :
    x.Guards c w (((x.storage c).rename old new).after w) := by
  have hrename := x.rename_eq c w old new
  split at hrename <;> rename_i hig
  · rw [Run.after_of_ok hrename]
    exact .refl x c w
  · rw [Store.rename_shelf] at hrename
    cases hd : (w.documents x.base c).get? old with
    | none =>
      rw [hd] at hrename
      rw [Run.after_of_ok hrename]
      exact .refl x c w
    | some d =>
      rw [hd] at hrename
      rw [Run.after_of_ok hrename]
      refine guards_of_spared (.put ..) fun name hname => ?_
      have hold : old ≠ name := by
        rintro rfl
        simp [hname] at hig
      have hnew : new ≠ name := by
        rintro rfl
        simp [hname] at hig
      rw [documents_put, if_pos ⟨rfl, rfl⟩, Dict.get?_insert, if_neg hnew, Dict.get?_erase,
        if_neg hold]

theorem deleteAll_guards (start : String) :
    x.Guards c w (((x.storage c).deleteAll start).after w) := by
  obtain ⟨v, hrun, honly, hv⟩ := x.deleteAll_documents c w start
  rw [Run.after_of_ok hrun]
  refine guards_of_spared honly fun name hig => ?_
  rw [hv name, if_neg (by simp [hig])]

theorem call_guards (k : Call) : x.Guards c w ((k.run (x.storage c)).after w) := by
  cases k <;> rw [Call.run, Run.after_map]
  case contains name =>
    rw [Run.after_of_ok (x.contains_eq c w name)]
    exact .refl x c w
  case read name =>
    rw [Run.after, x.read_eq c w name, ← Run.after, Run.after_ofOption]
    exact .refl x c w
  case readMany names =>
    rw [Run.after, x.readMany_eq c w names, ← Run.after, Run.after_ofOption]
    exact .refl x c w
  case write name d => exact write_guards name d
  case delete name => exact delete_guards name
  case rename old new => exact rename_guards old new
  case list start =>
    rw [Run.after_of_ok (x.list_eq c w start)]
    exact .refl x c w
  case deleteAll start => exact deleteAll_guards start
  case collectionNames =>
    rw [Run.after_of_ok (x.collectionNames_eq c w)]
    exact .refl x c w

/-! ## Whole sessions -/

/-- What holds in a session that started with a layer in some world. -/
structure Shielded (x : Layer) (w : World) (s : Session World Store) : Prop where
  views : ∀ v ∈ s.views, ∃ mark c, v = x.store mark c
  only : OnlyOn x.base w s.state
  guarded : ∀ c name, x.ignores name = true → Guarded ((w.documents x.active c).get? name)
    ((w.documents x.base c).get? name) ((s.state.documents x.base c).get? name)

theorem shielded_call {s : Session World Store} (hne : x.base ≠ x.active) (hs : x.Shielded w s)
    {v : Store} (hv : v ∈ s.views) (k : Call) : x.Shielded w (s.call v k) := by
  obtain ⟨mark, c, rfl⟩ := hs.views v hv
  have hcall : x.Guards c s.state (s.call (x.store mark c) k).state := call_guards k
  refine ⟨hs.views, hs.only.trans hcall.only.toOnlyOn, fun d name hig => ?_⟩
  by_cases hdc : d = c
  · subst hdc
    have hguarded := hcall.guarded name hig
    rw [hs.only.documents_of_ne hne.symm d] at hguarded
    exact (hs.guarded d name hig).trans hguarded
  · rw [hcall.only.collections d hdc]
    exact hs.guarded d name hig

theorem shielded_openCollection {s : Session World Store} (hs : x.Shielded w s) {v : Store}
    (hv : v ∈ s.views) (name : String) : x.Shielded w (s.openCollection v name) := by
  obtain ⟨mark, c, rfl⟩ := hs.views v hv
  have hopen : s.openCollection (x.store mark c) name = ⟨s.views ++ [x.store none name], s.state⟩ :=
    rfl
  rw [hopen]
  refine ⟨fun u hu => ?_, hs.only, hs.guarded⟩
  rcases List.mem_append.mp hu with hu | hu
  · exact hs.views u hu
  · exact ⟨none, name, List.mem_singleton.mp hu⟩

theorem run_shielded (hne : x.base ≠ x.active) (mark : Option Nat) (w : World)
    (steps : List Session.Step) :
    x.Shielded w (Session.run ⟨[x.store mark Name.defaultCollection], w⟩ steps) := by
  refine Session.run_inv (fun s hs v hv name => shielded_openCollection hs hv name)
    (fun s hs v hv k => shielded_call hne hs hv k) ⟨fun v hv => ?_, .refl x.base w, ?_⟩ steps
  · exact ⟨mark, Name.defaultCollection, List.mem_singleton.mp hv⟩
  · exact fun _ _ _ => .inl rfl

/-- After every session with a layer, the active shelf is as it was, and each ignored document of the
wrapped shelf is as it was, or that of the active shelf, or gone where the active shelf has none or an
empty one. What is written under an ignored name does not depend on what the caller gives, and no
document is renamed to such a name or away from it. -/
theorem run_shields (hne : x.base ≠ x.active) (mark : Option Nat) (w : World)
    (steps : List Session.Step) :
    let s := Session.run ⟨[x.store mark Name.defaultCollection], w⟩ steps
    s.state.shelves.get x.active = w.shelves.get x.active ∧
    ∀ name, x.ignores name = true →
      (∀ c, (s.state.documents x.base c).get? name = (w.documents x.base c).get? name ∨
        (∃ d, (w.documents x.active c).get? name = some d ∧ d.isEmpty = false ∧
          (s.state.documents x.base c).get? name = some d) ∨
        ((s.state.documents x.base c).get? name = none ∧
          ∀ d, (w.documents x.active c).get? name = some d → d.isEmpty = true)) ∧
      ∀ v ∈ s.views,
        (∀ d e, v.storage.write name d s.state = v.storage.write name e s.state) ∧
        ∀ other, v.storage.rename name other s.state = .ok false s.state ∧
          v.storage.rename other name s.state = .ok false s.state := by
  intro s
  have hs : x.Shielded w s := run_shielded hne mark w steps
  refine ⟨hs.only.shelves _ hne.symm, fun name hig => ⟨fun c => ?_, fun v hv => ?_⟩⟩
  · rcases hs.guarded c name hig with hkept | hactive
    · exact .inl hkept
    · cases ha : (w.documents x.active c).get? name with
      | none =>
        rw [ha] at hactive
        exact .inr (.inr ⟨hactive, nofun⟩)
      | some d =>
        cases hempty : d.isEmpty with
        | true =>
          refine .inr (.inr ⟨?_, fun e he => ?_⟩)
          · rw [hactive, ha, Option.filter_some_neg (by simp [hempty])]
          · rw [← Option.some.inj he, hempty]
        | false =>
          refine .inr (.inl ⟨d, rfl, hempty, ?_⟩)
          rw [hactive, ha, Option.filter_some_pos (by simp [hempty])]
  · obtain ⟨mark, c, rfl⟩ := hs.views v hv
    refine ⟨fun d e => ?_, fun other => ⟨?_, ?_⟩⟩
    · refine (x.write_eq c s.state name d).trans (.trans ?_ (x.write_eq c s.state name e).symm)
      rw [x.replaced_of_ignores hig, x.replaced_of_ignores hig]
    · exact (x.rename_eq c s.state name other).trans (if_pos (by simp [hig]))
    · exact (x.rename_eq c s.state other name).trans (if_pos (by simp [hig]))

theorem run_shields_site :
    site.base ≠ site.active ∧ site.ignores "system.site" = true ∧
      let s := Session.run ⟨[site.store none Name.defaultCollection], siteWorld⟩
        [.call 0 (.write "system.site" (texts [("name", "Caller")])), .collection 0 "language.de",
          .call 1 (.rename "system.site" "user.site"), .call 0 (.deleteAll "system")]
      s.state.shelves.get site.active = siteWorld.shelves.get site.active ∧
        ((s.state.documents site.base "").get? "system.site" =
            (siteWorld.documents site.base "").get? "system.site" ∨
          (∃ d, (siteWorld.documents site.active "").get? "system.site" = some d ∧
            d.isEmpty = false ∧ (s.state.documents site.base "").get? "system.site" = some d) ∨
          ((s.state.documents site.base "").get? "system.site" = none ∧
            ∀ d, (siteWorld.documents site.active "").get? "system.site" = some d →
              d.isEmpty = true)) := by
  have hne : site.base ≠ site.active := by decide
  have hig : site.ignores "system.site" = true := by decide +kernel
  obtain ⟨hactive, hall⟩ := run_shields hne none siteWorld
    [.call 0 (.write "system.site" (texts [("name", "Caller")])), .collection 0 "language.de",
      .call 1 (.rename "system.site" "user.site"), .call 0 (.deleteAll "system")]
  exact ⟨hne, hig, hactive, (hall "system.site" hig).1 ""⟩

end LayeredConfig.Layer
