import LayeredConfig.Glob.Braces
import LayeredConfig.Glob.Match
/-!
# Braces that stand for themselves

`Plain.ofText?` reads globs that have no alternatives: a brace or a comma is a character like others. A
glob whose braces are escaped is read with alternatives as the glob itself is read without them, to the
same tokens or the same fault (`ofText?_escapeBraces`). What has to agree for it is where classes begin
and end (`Mode.escape`): escaping keeps track of that on its own.
-/

namespace LayeredConfig.Glob

/-! ## Globs without alternatives -/

namespace Plain

/-- Whether two stars may stand for directories, after some tokens and a character: they stand at the
start, or after a slash. -/
def allowsDirectories (ts : List Token) (before : Option Char) : Bool :=
  ts.isEmpty || before = some '/'

/-- Two stars that stand for directories, in the place of the slash before them. Directly after other
such stars they say nothing new. -/
def directories (t : Token) : List Token → List Token
  | [] => [.recursivePrefix]
  | .recursivePrefix :: ts => .recursivePrefix :: ts
  | .recursiveSuffix :: ts => .recursiveSuffix :: ts
  | _ :: ts => t :: ts

/-- Two stars that are not followed by a slash stand for directories only at the end. -/
def stars (before : Option Char) (atEnd : Bool) (ts : List Token) : List Token :=
  if allowsDirectories ts before && atEnd then directories .recursiveSuffix ts
  else .zeroOrMore :: .zeroOrMore :: ts

/-- Reads the rest of a glob after some tokens, the last one first. -/
def read : Mode → List Token → List Char → Except GlobFault (List Token)
  | .outside _, ts, [] => .ok ts
  | .inside _, _, [] => .error .unclosedClass
  | .inside k, ts, c :: rest =>
    if c = ']' && !k.ranges.isEmpty then read (.outside (some ']')) (k.close :: ts) rest
    else match k.add c with
      | .ok k => read (.inside k) ts rest
      | .error f => .error f
  | .outside before, ts, '*' :: '*' :: '/' :: rest =>
    if allowsDirectories ts before then
      read (.outside (some '/')) (directories .recursiveZeroOrMore ts) rest
    else read (.outside (some '/')) (.literal '/' :: .zeroOrMore :: .zeroOrMore :: ts) rest
  | .outside before, ts, '*' :: '*' :: rest =>
    read (.outside (some '*')) (stars before rest.isEmpty ts) rest
  | .outside _, ts, '*' :: rest => read (.outside (some '*')) (.zeroOrMore :: ts) rest
  | .outside _, ts, '?' :: rest => read (.outside (some '?')) (.any :: ts) rest
  | .outside _, ts, '[' :: '!' :: rest => read (.inside ⟨true, [], false⟩) ts rest
  | .outside _, ts, '[' :: '^' :: rest => read (.inside ⟨true, [], false⟩) ts rest
  | .outside _, ts, '[' :: rest => read (.inside ⟨false, [], false⟩) ts rest
  | .outside _, _, ['\\'] => .error .danglingEscape
  | .outside _, ts, '\\' :: c :: rest => read (.outside (some c)) (.literal c :: ts) rest
  | .outside _, ts, c :: rest => read (.outside (some c)) (.literal c :: ts) rest

/-- The glob of a text in which braces and commas are plain characters. -/
def ofText? (text : String) : Except GlobFault Glob :=
  (read (.outside none) [] text.toList).map fun ts => ⟨ts.reverse⟩

end Plain

/-! ## Classes -/

theorem ClassDraft.ranges_of_add {k k' : ClassDraft} {c : Char} (h : k.add c = .ok k') :
    k'.ranges.isEmpty = false := by
  unfold ClassDraft.add at h
  split at h
  · cases h
    rfl
  · split at h
    · split at h <;> cases h
      rfl
    · split at h <;> cases h <;> rfl

/-- Whether a token holds alternatives. -/
def Token.isAlternates : Token → Bool
  | .alternates _ => true
  | _ => false

namespace Plain

/-- The faults of globs without alternatives. -/
inductive Fault : GlobFault → Prop
  | unclosedClass : Fault .unclosedClass
  | invalidRange (first last : Char) : Fault (.invalidRange first last)
  | danglingEscape : Fault .danglingEscape

theorem Fault.of_add {k : ClassDraft} {c : Char} {f : GlobFault} (h : k.add c = .error f) :
    Fault f := by
  unfold ClassDraft.add at h
  split at h
  · cases h
  · split at h
    · split at h <;> cases h
      exact .invalidRange _ _
    · split at h <;> cases h

variable {m : Mode} {ts us : List Token} {cs : List Char} {f : GlobFault}

theorem fault_of_read (h : read m ts cs = .error f) : Fault f := by
  fun_induction read m ts cs with
  | case2 =>
    cases h
    exact .unclosedClass
  | case5 k ts c rest _ f' hadd =>
    cases h
    exact .of_add hadd
  | case14 =>
    cases h
    exact .danglingEscape
  | _ => simp_all

/-- No token among some holds alternatives. -/
def Bare (ts : List Token) : Prop := ∀ t ∈ ts, t.isAlternates = false

theorem bare_cons {t : Token} : Bare (t :: ts) ↔ t.isAlternates = false ∧ Bare ts :=
  List.forall_mem_cons

theorem bare_directories {t : Token} (ht : t.isAlternates = false) (hts : Bare ts) :
    Bare (directories t ts) := by
  unfold directories
  split <;> simp_all [Token.isAlternates, Bare]

theorem bare_stars {before : Option Char} {atEnd : Bool} (hts : Bare ts) :
    Bare (stars before atEnd ts) := by
  unfold stars
  split
  · exact bare_directories rfl hts
  · exact bare_cons.mpr ⟨rfl, bare_cons.mpr ⟨rfl, hts⟩⟩

theorem bare_of_read (hts : Bare ts) (h : read m ts cs = .ok us) : Bare us := by
  fun_induction read m ts cs with
  | case1 =>
    cases h
    exact hts
  | case2 | case5 | case14 => cases h
  | case6 before ts rest _ ih => exact ih (bare_directories rfl hts) h
  | case8 before ts rest _ ih => exact ih (bare_stars hts) h
  | _ => simp_all [bare_cons, Token.isAlternates, ClassDraft.close]

end Plain

/-! ## Escaping and reading keep step -/

/-- What follows the opening bracket of a class, escaped: a closing bracket there is a member. -/
def escapeClass : List Char → List Char
  | ']' :: rest => ']' :: escapeFrom true rest
  | cs => escapeFrom true cs

/-- The rest of a glob, escaped: after its first member, a class goes on to a closing bracket. -/
def Mode.escape : Mode → List Char → List Char
  | .outside _, cs => escapeFrom false cs
  | .inside k, cs => if k.ranges.isEmpty then escapeClass cs else escapeFrom true cs

section Escape

variable {c : Char} {cs : List Char}

theorem escapeFrom_cons (h : c ∉ ['\\', '[', '\x7b', '\x7d']) (cs : List Char) :
    escapeFrom false (c :: cs) = c :: escapeFrom false cs := by
  simp only [List.mem_cons, List.not_mem_nil, or_false, not_or] at h
  simp [escapeFrom, h]

theorem escapeFrom_brace (h : c = '\x7b' ∨ c = '\x7d') (cs : List Char) :
    escapeFrom false (c :: cs) = '\\' :: c :: escapeFrom false cs := by
  rcases h with rfl | rfl <;> rfl

theorem escapeFrom_negated (h : c = '!' ∨ c = '^') (cs : List Char) :
    escapeFrom false ('[' :: c :: cs) = '[' :: c :: escapeClass cs := by
  unfold escapeClass
  rcases h with rfl | rfl <;> split <;> simp_all [escapeFrom]

theorem escapeFrom_class (h : cs.head? ≠ some '!') (h' : cs.head? ≠ some '^') :
    escapeFrom false ('[' :: cs) = '[' :: escapeClass cs := by
  unfold escapeClass
  split
  · simp [escapeFrom]
  · next hclose =>
    cases cs with
    | nil => simp [escapeFrom]
    | cons c rest =>
      have hc : c ≠ ']' := by
        rintro rfl
        exact hclose rest rfl
      simp_all [escapeFrom]

/-- A member of a class is not escaped. -/
theorem escape_inside {k : ClassDraft} (h : ¬(c = ']' && !k.ranges.isEmpty) = true)
    (rest : List Char) : (Mode.inside k).escape (c :: rest) = c :: escapeFrom true rest := by
  by_cases hc : c = ']'
  · subst hc
    have hempty : k.ranges = [] := by simpa using h
    simp [Mode.escape, hempty, escapeClass]
  · simp [Mode.escape, escapeClass, escapeFrom, hc]

theorem escape_inside_of_add {k k' : ClassDraft} (h : k.add c = .ok k') (cs : List Char) :
    (Mode.inside k').escape cs = escapeFrom true cs := by
  rw [Mode.escape, k.ranges_of_add h, if_neg Bool.false_ne_true]

/-- Escaping puts only backslashes before characters. -/
theorem head?_escapeFrom (hc : c ≠ '\\') (h : cs.head? ≠ some c) :
    (escapeFrom false cs).head? ≠ some c := by
  generalize hoff : false = inClass
  fun_cases escapeFrom inClass cs <;> simp_all [eq_comm]

theorem head?_escapeClass (h : cs.head? ≠ some c) : (escapeClass cs).head? ≠ some c := by
  unfold escapeClass
  split
  · exact h
  · cases cs with
    | nil => simp [escapeFrom]
    | cons x rest => by_cases hx : x = ']' <;> simp_all [escapeFrom]

theorem isEmpty_escapeFrom (inClass : Bool) (cs : List Char) :
    (escapeFrom inClass cs).isEmpty = cs.isEmpty := by
  fun_cases escapeFrom inClass cs <;> rfl

end Escape

/-! ## Reading outside of groups -/

section Outside

variable {c : Char} {cs : List Char}

attribute [local simp] read

theorem allowsDirectories_eq (ts : List Token) (before : Option Char) :
    Draft.allowsDirectories ⟨ts, []⟩ before = Plain.allowsDirectories ts before := by
  simp [Draft.allowsDirectories, Plain.allowsDirectories]

theorem directories_eq (t : Token) (ts : List Token) :
    Draft.directories ⟨ts, []⟩ t = ⟨Plain.directories t ts, []⟩ := by
  unfold Draft.directories Plain.directories
  dsimp only
  split <;> simp_all [Draft.push]

theorem stars_eq (before after : Option Char) (ts : List Token) :
    Draft.stars ⟨ts, []⟩ before after = ⟨Plain.stars before after.isNone ts, []⟩ := by
  unfold Draft.stars Plain.stars
  rw [allowsDirectories_eq, directories_eq]
  cases Plain.allowsDirectories ts before <;> cases after <;> simp [Draft.push]

theorem head?_ne (h : ∀ rest, cs = c :: rest → False) : cs.head? ≠ some c := by
  intro hc
  obtain ⟨rest, rfl⟩ := List.head?_eq_some_iff.mp hc
  exact h rest rfl

theorem read_stars (h : cs.head? ≠ some '/') (before : Option Char) (d : Draft) :
    read (.outside before) d ('*' :: '*' :: cs) =
      read (.outside (some '*')) (d.stars before cs.head?) cs := by
  rw [read]
  rintro rest rfl
  exact h rfl

theorem read_star (h : cs.head? ≠ some '*') (before : Option Char) (d : Draft) :
    read (.outside before) d ('*' :: cs) = read (.outside (some '*')) (d.push .zeroOrMore) cs := by
  rw [read]
  · rintro rest rfl
    exact h rfl
  · rintro rest rfl
    exact h rfl

theorem read_class (h : cs.head? ≠ some '!') (h' : cs.head? ≠ some '^') (before : Option Char)
    (d : Draft) :
    read (.outside before) d ('[' :: cs) = read (.inside ⟨false, [], false⟩) d cs := by
  rw [read]
  · rintro rest rfl
    exact h rfl
  · rintro rest rfl
    exact h' rfl

/-- Outside of groups a comma is a character like others. -/
theorem read_cons (h : c ∉ ['*', '?', '[', '\x7b', '\x7d', '\\']) (before : Option Char)
    (ts : List Token) (cs : List Char) :
    read (.outside before) ⟨ts, []⟩ (c :: cs) =
      read (.outside (some c)) ⟨.literal c :: ts, []⟩ cs := by
  simp only [List.mem_cons, List.not_mem_nil, or_false, not_or] at h
  by_cases hc : c = ','
  · subst hc
    rfl
  · simp [h, Draft.push]

end Outside

/-- The rest of a glob, escaped, is read with alternatives as it is read without them. -/
theorem read_escape (m : Mode) (ts : List Token) (cs : List Char) :
    read m ⟨ts, []⟩ (m.escape cs) = (Plain.read m ts cs).map (⟨·, []⟩) := by
  fun_induction Plain.read m ts cs with
  | case1 => rfl
  | case2 k =>
    have hnil : (Mode.inside k).escape [] = [] := by simp [Mode.escape, escapeClass, escapeFrom]
    rw [hnil]
    rfl
  | case3 k ts c rest h ih =>
    obtain ⟨rfl, hmore⟩ : c = ']' ∧ k.ranges.isEmpty = false := by simpa using h
    rw [Mode.escape, if_neg (by simp [hmore]), escapeFrom, read, if_pos h]
    exact ih
  | case4 k ts c rest h k' hadd ih =>
    rw [escape_inside h, read, if_neg h, hadd, ← escape_inside_of_add hadd]
    exact ih
  | case5 k ts c rest h f hadd =>
    rw [escape_inside h, read, if_neg h, hadd]
    rfl
  | case6 before ts rest h ih =>
    rw [Mode.escape, escapeFrom_cons (by decide), escapeFrom_cons (by decide),
      escapeFrom_cons (by decide), read, allowsDirectories_eq, if_pos h, directories_eq]
    exact ih
  | case7 before ts rest h ih =>
    rw [Mode.escape, escapeFrom_cons (by decide), escapeFrom_cons (by decide),
      escapeFrom_cons (by decide), read, allowsDirectories_eq, if_neg h]
    exact ih
  | case8 before ts rest hslash ih =>
    have hstop : (escapeFrom false rest).head?.isNone = rest.isEmpty := by
      rw [← isEmpty_escapeFrom false rest]
      cases escapeFrom false rest <;> rfl
    rw [Mode.escape, escapeFrom_cons (by decide), escapeFrom_cons (by decide),
      read_stars (head?_escapeFrom (by decide) (head?_ne hslash)), stars_eq, hstop]
    exact ih
  | case9 before ts rest _ hstar ih =>
    rw [Mode.escape, escapeFrom_cons (by decide),
      read_star (head?_escapeFrom (by decide) (head?_ne hstar))]
    exact ih
  | case10 before ts rest ih => exact ih
  | case11 before ts rest ih =>
    rw [Mode.escape, escapeFrom_negated (.inl rfl)]
    exact ih
  | case12 before ts rest ih =>
    rw [Mode.escape, escapeFrom_negated (.inr rfl)]
    exact ih
  | case13 before ts rest h h' ih =>
    have h := head?_ne h
    have h' := head?_ne h'
    rw [Mode.escape, escapeFrom_class h h', read_class (head?_escapeClass h) (head?_escapeClass h')]
    exact ih
  | case14 => rfl
  | case15 before ts c rest ih => exact ih
  | case16 before ts c rest _ _ hstar hany _ _ hclass hend hescape ih =>
    have hbackslash : c ≠ '\\' := by
      rintro rfl
      cases rest with
      | nil => exact hend rfl rfl
      | cons c rest => exact hescape c rest rfl rfl
    by_cases hbrace : c = '\x7b' ∨ c = '\x7d'
    · rw [Mode.escape, escapeFrom_brace hbrace]
      exact ih
    · rw [not_or] at hbrace
      have hplain : c ∉ ['*', '?', '[', '\x7b', '\x7d', '\\'] := by
        simp only [List.mem_cons, List.not_mem_nil, or_false, not_or]
        exact ⟨hstar, hany, hclass, hbrace.1, hbrace.2, hbackslash⟩
      rw [Mode.escape, escapeFrom_cons (fun h => hplain (by simp_all)), read_cons hplain]
      exact ih

/-! ## Whole globs -/

/-- A glob whose braces are escaped is read as the glob itself is read without alternatives: to the same
tokens, none of which holds alternatives, so that the same names match, or to the same fault, which has to
do with a class or with an escape. -/
theorem ofText?_escapeBraces (text : String) :
    ofText? (escapeBraces text) = Plain.ofText? text ∧
      (∀ f, ofText? (escapeBraces text) = .error f → Plain.Fault f) ∧
      ∀ g, ofText? (escapeBraces text) = .ok g → Plain.Bare g.tokens ∧
        ∀ h, Plain.ofText? text = .ok h →
          ∀ name, g.admits name = h.admits name ∧ g.admitsPath name = h.admitsPath name := by
  have hread : read (.outside none) ⟨[], []⟩ (escapeBraces text).toList =
      (Plain.read (.outside none) [] text.toList).map (⟨·, []⟩) := by
    rw [escapeBraces, String.toList_ofList]
    exact read_escape (.outside none) [] text.toList
  rw [ofText?, hread, Plain.ofText?]
  cases hplain : Plain.read (.outside none) [] text.toList with
  | error f =>
    refine ⟨rfl, ?_, nofun⟩
    rintro f' ⟨⟩
    exact Plain.fault_of_read hplain
  | ok ts =>
    refine ⟨rfl, nofun, ?_⟩
    rintro g ⟨⟩
    have hbare : Plain.Bare ts := Plain.bare_of_read (List.forall_mem_nil _) hplain
    refine ⟨fun t ht => hbare t (List.mem_reverse.mp ht), ?_⟩
    rintro h ⟨⟩ name
    exact ⟨rfl, rfl⟩

/-- A brace in a class stays a member, and one behind a class is escaped. -/
example : escapeBraces "[]\x7b]\x7dx" = "[]\x7b]\\\x7dx" := by decide

end LayeredConfig.Glob
