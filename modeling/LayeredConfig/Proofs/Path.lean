import LayeredConfig.Path
import Mathlib.Data.List.DropRight
/-!
# Paths

The names of a path are its components without the dots that lead nowhere. Joining a component to a path
adds a name (`names_join`). A path that has names is the path above it, a slash and a rest that has its
last name (`exists_parent`).
-/

namespace LayeredConfig

namespace Name

theorem cut_eq_splitOn (separator : Char) (s : List Char) : cut separator s = s.splitOn separator := by
  induction s with
  | nil => rfl
  | cons c rest ih =>
    rw [cut, List.splitOn_cons_eq_if_modifyHead, ih]
    cases h : rest.splitOn separator with
    | nil => exact (List.splitOn_ne_nil separator rest h).elim
    | cons part parts => by_cases hc : c = separator <;> simp [hc]

theorem not_mem_of_mem_splitOn {separator : Char} {s part : List Char}
    (h : part ∈ s.splitOn separator) : separator ∉ part := by
  induction s generalizing part with
  | nil => simp_all
  | cons c rest ih =>
    rw [List.splitOn_cons_eq_if_modifyHead] at h
    split at h
    · rcases List.mem_cons.mp h with rfl | h
      · simp
      · exact ih h
    · next hc =>
      cases hrest : rest.splitOn separator with
      | nil => exact (List.splitOn_ne_nil separator rest hrest).elim
      | cons first others =>
        rw [hrest] at h ih
        rcases List.mem_cons.mp h with rfl | h
        · rw [List.mem_cons]
          rintro (rfl | hmem)
          · exact hc BEq.rfl
          · exact ih List.mem_cons_self hmem
        · exact ih (List.mem_cons_of_mem first h)

theorem parts_append (separator : Char) (s t : String) :
    parts separator (s ++ String.singleton separator ++ t) = parts separator s ++ parts separator t := by
  simp only [parts, cut_eq_splitOn, String.toList_append, String.toList_singleton,
    List.append_assoc, List.singleton_append, List.splitOn_append_cons_self, List.map_append]

theorem parts_of_not_mem {separator : Char} {s : String} (h : separator ∉ s.toList) :
    parts separator s = [s] := by
  rw [parts, cut_eq_splitOn, List.splitOn_eq_singleton h]
  simp

theorem not_mem_of_mem_parts {separator : Char} {s part : String} (h : part ∈ parts separator s) :
    separator ∉ part.toList := by
  rw [parts, cut_eq_splitOn] at h
  obtain ⟨p, hp, rfl⟩ := List.mem_map.mp h
  rw [String.toList_ofList]
  exact not_mem_of_mem_splitOn hp

theorem intercalate_parts (separator : Char) (s : String) :
    (String.singleton separator).intercalate (parts separator s) = s := by
  rw [← String.toList_inj, String.toList_intercalate, parts, cut_eq_splitOn, List.map_map]
  have hid : (String.toList ∘ String.ofList) = id := by
    funext p
    simp
  rw [hid, List.map_id, String.toList_singleton, List.intercalate_splitOn]

theorem exists_append_of_mem_parts {separator : Char} {s part : String}
    (h : part ∈ parts separator s) : ∃ before after, s = before ++ part ++ after := by
  rw [← intercalate_parts separator s]
  generalize parts separator s = ps at h ⊢
  induction ps with
  | nil => simp at h
  | cons p ps ih =>
    rcases List.mem_cons.mp h with rfl | h
    · cases ps with
      | nil => exact ⟨"", "", by simp⟩
      | cons q ps =>
        refine ⟨"", String.singleton separator ++ (String.singleton separator).intercalate (q :: ps), ?_⟩
        rw [String.intercalate_cons_cons, String.empty_append, String.append_assoc]
    · obtain ⟨before, after, hps⟩ := ih h
      refine ⟨p ++ String.singleton separator ++ before, after, ?_⟩
      rw [String.intercalate_cons_of_ne_nil (List.ne_nil_of_mem h), hps]
      simp only [String.append_assoc]

theorem parts_intercalate {separator : Char} {ps : List String} (hps : ps ≠ [])
    (h : ∀ p ∈ ps, separator ∉ p.toList) :
    parts separator ((String.singleton separator).intercalate ps) = ps := by
  rw [parts, cut_eq_splitOn, String.toList_intercalate, String.toList_singleton,
    List.splitOn_intercalate _ (by simpa using h) (by simpa using hps), List.map_map]
  have hid : (String.ofList ∘ String.toList) = id := by
    funext p
    simp
  rw [hid, List.map_id]

end Name

namespace Path

/-! ## Names -/

/-- The names on a path: its components, but for the dots that stay where they are. -/
def names (path : String) : List String := (steps path).filter (· ≠ ".")

theorem steps_append (s t : String) : steps (s ++ "/" ++ t) = steps s ++ steps t := by
  rw [steps, show "/" = String.singleton '/' from rfl, Name.parts_append, List.filter_append]
  rfl

theorem steps_empty : steps "" = [] := rfl

theorem steps_of_not_mem {part : String} (hslash : '/' ∉ part.toList) (hne : part ≠ "") :
    steps part = [part] := by
  rw [steps, Name.parts_of_not_mem hslash]
  simp [hne]

theorem names_append (s t : String) : names (s ++ "/" ++ t) = names s ++ names t := by
  rw [names, steps_append, List.filter_append]
  rfl

/-- Joining a component to a path adds a step. -/
theorem steps_join {path part : String} (hslash : '/' ∉ part.toList) (hne : part ≠ "") :
    steps (join path part) = steps path ++ [part] := by
  rw [join]
  split
  · next h =>
    rw [Bool.or_eq_true] at h
    rcases h with hempty | hends
    · rw [String.isEmpty_iff.mp hempty, String.empty_append, steps_of_not_mem hslash hne]
      rfl
    · obtain ⟨before, hbefore⟩ : ∃ before, path = before ++ "/" := by
        simp only [endsInSlash, decide_eq_true_eq] at hends
        obtain ⟨before, hlist⟩ := List.getLast?_eq_some_iff.mp hends
        exact ⟨String.ofList before, by rw [← String.toList_inj]; simp [hlist]⟩
      have hpath : steps path = steps before := by
        rw [hbefore, ← String.append_empty (s := before ++ "/"), steps_append, steps_empty,
          List.append_nil]
      rw [hpath, hbefore, steps_append, steps_of_not_mem hslash hne]
  · rw [steps_append, steps_of_not_mem hslash hne]

theorem join_cases (path part : String) :
    join path part = path ++ part ∧ (path = "" ∨ endsInSlash path = true) ∨
      join path part = path ++ "/" ++ part := by
  rw [join]
  split
  · next h =>
    rw [Bool.or_eq_true, String.isEmpty_iff] at h
    exact .inl ⟨rfl, h⟩
  · exact .inr rfl

theorem endsInSlash_join {path part : String} (hslash : '/' ∉ part.toList) (hne : part ≠ "") :
    endsInSlash (join path part) = false := by
  have hpart : part.toList ≠ [] := by simpa using hne
  have hlast : (join path part).toList.getLast? = part.toList.getLast? := by
    rcases join_cases path part with ⟨h, -⟩ | h
    · rw [h, String.toList_append, List.getLast?_append_of_ne_nil _ hpart]
    · rw [h, String.toList_append, List.getLast?_append_of_ne_nil _ hpart]
  rw [endsInSlash, hlast, decide_eq_false_iff_not]
  intro h
  exact hslash (List.mem_of_getLast? h)

/-! ## Components that lead down -/

/-- A component that leads to something in a directory: it has no slash, and is neither empty nor made
of dots that lead elsewhere. -/
structure Component (part : String) : Prop where
  ne_empty : part ≠ ""
  ne_dot : part ≠ "."
  ne_dots : part ≠ ".."
  not_slash : '/' ∉ part.toList

variable {path part : String} {parts : List String}

theorem names_join (h : Component part) : names (join path part) = names path ++ [part] := by
  rw [names, steps_join h.not_slash h.ne_empty, List.filter_append]
  simp [names, h.ne_dot]

theorem steps_foldl_join (h : ∀ p ∈ parts, Component p) :
    steps (parts.foldl join path) = steps path ++ parts := by
  induction parts generalizing path with
  | nil => simp
  | cons p rest ih =>
    have hp := h p (by simp)
    rw [List.foldl_cons, ih fun x hx => h x (List.mem_cons_of_mem p hx),
      steps_join hp.not_slash hp.ne_empty]
    simp

theorem names_foldl_join (h : ∀ p ∈ parts, Component p) :
    names (parts.foldl join path) = names path ++ parts := by
  rw [names, steps_foldl_join h, List.filter_append, names]
  congr 1
  rw [List.filter_eq_self]
  intro p hp
  simpa using (h p hp).ne_dot

/-- What is joined to a path that ends in a component comes after a slash. -/
theorem join_join (h : Component part) (other : String) :
    join (join path part) other = join path part ++ "/" ++ other := by
  have hslash := @endsInSlash_join path _ h.not_slash h.ne_empty
  have hne : (join path part).isEmpty = false := by
    by_contra hempty
    rw [Bool.not_eq_false, String.isEmpty_iff] at hempty
    rcases join_cases path part with ⟨hjoin, -⟩ | hjoin
    · rw [hjoin] at hempty
      apply h.ne_empty
      have hbytes := congrArg String.utf8ByteSize hempty
      simp at hbytes
      exact hbytes.2
    · rw [hjoin] at hempty
      have hbytes := congrArg String.utf8ByteSize hempty
      simp at hbytes
  rw [join, hne, hslash]
  rfl

/-- Components that are joined one by one can be joined at once. -/
theorem foldl_join_eq (hne : parts ≠ []) (h : ∀ p ∈ parts, Component p) :
    parts.foldl join path = join path ("/".intercalate parts) := by
  induction parts generalizing path with
  | nil => exact (hne rfl).elim
  | cons p rest ih =>
    cases rest with
    | nil => simp
    | cons q rest =>
      have hp := h p (by simp)
      rw [List.foldl_cons, ih (by simp) fun x hx => h x (List.mem_cons_of_mem p hx), join_join hp,
        String.intercalate_cons_cons]
      unfold join
      split
      · simp only [String.append_assoc]
      · simp only [String.append_assoc]

/-! ## The path above -/

/-- Whether a component leads nowhere. -/
def idle (part : List Char) : Bool := part = [] ∨ part = ['.']

/-- The names among some components. -/
def named (parts : List (List Char)) : List String :=
  (parts.filter fun part => !idle part).map String.ofList

theorem names_eq (path : String) : names path = named (path.toList.splitOn '/') := by
  rw [names, steps, Name.parts, Name.cut_eq_splitOn, List.filter_filter, named]
  rw [List.filter_map]
  congr 1
  refine List.filter_congr fun part _ => ?_
  have hempty : (String.ofList part).isEmpty = decide (part = []) := by
    rw [Bool.eq_iff_iff, String.isEmpty_iff, ← String.toList_inj]
    simp
  have hdot : (String.ofList part = ".") = (part = ['.']) := by
    rw [← String.toList_inj]
    simp
  simp only [Function.comp, hempty, idle]
  cases hp : decide (part = []) <;> simp_all

theorem named_append (xs ys : List (List Char)) : named (xs ++ ys) = named xs ++ named ys := by
  simp [named]

theorem named_of_idle {parts : List (List Char)} (h : ∀ part ∈ parts, idle part = true) :
    named parts = [] := by
  simpa [named] using h

/-- A path is its head and its body. Where the head is a dot, a slash comes next. -/
theorem head_cases (s : List Char) :
    (head s = [] ∧ s.drop (head s).length = s) ∨
    (∃ body, s = '/' :: body ∧ head s = ['/'] ∧ s.drop (head s).length = body) ∨
    (s = ['.'] ∧ head s = ['.'] ∧ s.drop (head s).length = []) ∨
    ∃ body, s = '.' :: '/' :: body ∧ head s = ['.'] ∧ s.drop (head s).length = '/' :: body := by
  unfold head
  split
  · next body => exact .inr (.inl ⟨body, rfl, rfl, rfl⟩)
  · exact .inr (.inr (.inl ⟨rfl, rfl, rfl⟩))
  · next body => exact .inr (.inr (.inr ⟨body, rfl, rfl, rfl⟩))
  · exact .inl ⟨rfl, rfl⟩

theorem head_append (s : List Char) : head s ++ s.drop (head s).length = s := by
  rcases head_cases s with ⟨h, hdrop⟩ | ⟨body, rfl, h, hdrop⟩ | ⟨rfl, h, hdrop⟩ |
    ⟨body, rfl, h, hdrop⟩ <;> rw [hdrop, h] <;> rfl

theorem splitOn_slash (s : List Char) : ('/' :: s).splitOn '/' = [] :: s.splitOn '/' := by
  rw [List.splitOn_cons_eq_if_modifyHead, if_pos BEq.rfl]

theorem splitOn_dot_slash (s : List Char) :
    ('.' :: '/' :: s).splitOn '/' = ['.'] :: s.splitOn '/' := by
  have hdot : '/' ∉ ['.'] := by decide
  exact List.splitOn_append_cons_self_of_not_mem hdot s

theorem intercalate_append {xs ys : List (List Char)} (hxs : xs ≠ []) (hys : ys ≠ []) :
    ['/'].intercalate (xs ++ ys) = ['/'].intercalate xs ++ '/' :: ['/'].intercalate ys := by
  induction xs with
  | nil => exact (hxs rfl).elim
  | cons x xs ih =>
    cases xs with
    | nil => simp [List.intercalate_cons_of_ne_nil hys]
    | cons x' xs =>
      rw [List.intercalate_cons_cons, List.cons_append, List.cons_append, List.intercalate_cons_cons,
        ← List.cons_append, ih (by simp)]
      simp

/-- A path whose last step is a name, if it has names at all. -/
def Trimmed (path : String) : Prop := names path = [] ∨ (steps path).getLast? = (names path).getLast?

theorem trimmed_of_splitOn {path : String} {before : List (List Char)} {last : List Char}
    (h : path.toList.splitOn '/' = before ++ [last]) (hlast : idle last = false) : Trimmed path := by
  have hnames : names path = named before ++ [String.ofList last] := by
    rw [names_eq, h, named_append]
    simp [named, hlast]
  have hsteps : ∃ ss, steps path = ss ++ [String.ofList last] := by
    have hne : last ≠ [] := by
      rintro rfl
      cases hlast
    rw [steps, Name.parts, Name.cut_eq_splitOn, h, List.map_append, List.filter_append]
    refine ⟨_, congrArg _ ?_⟩
    simp [hne]
  obtain ⟨ss, hss⟩ := hsteps
  right
  rw [hnames, hss, List.getLast?_concat, List.getLast?_concat]

/-- The last step of a trimmed path is its last name. -/
theorem Trimmed.steps_eq {path name : String} {before : List String} (h : Trimmed path)
    (hnames : names path = before ++ [name]) :
    ∃ ss, steps path = ss ++ [name] ∧ ss.filter (· ≠ ".") = before := by
  rcases h with h | h
  · simp [h] at hnames
  · rw [hnames, List.getLast?_concat] at h
    obtain ⟨ss, hss⟩ := List.getLast?_eq_some_iff.mp h
    refine ⟨ss, hss, ?_⟩
    have hname : name ≠ "." := by
      have hmem : name ∈ names path := by simp [hnames]
      simpa using (List.mem_filter.mp hmem).2
    rw [names, hss, List.filter_append] at hnames
    simpa [hname] using hnames

/-- What is left of a list without idle components in front. -/
theorem exists_dropWhile (l : List (List Char)) : ∃ front, (∀ x ∈ front, idle x = true) ∧
    l = front ++ l.dropWhile idle ∧ ∀ x ∈ (l.dropWhile idle).head?, idle x = false := by
  refine ⟨l.takeWhile idle, fun x hx => List.mem_takeWhile_imp hx,
    List.takeWhile_append_dropWhile.symm, fun x hx => ?_⟩
  have hnot := List.head?_dropWhile_not idle l
  rw [Option.mem_def] at hx
  rw [hx] at hnot
  exact hnot

/-- The components of the body of a path with names: those of the path above, and a rest that has the
last name. -/
theorem exists_components {path : String} (h : named
      ((path.toList.drop (head path.toList).length).splitOn '/') ≠ []) : ∃ xs ys p,
    (path.toList.drop (head path.toList).length).splitOn '/' = xs ++ ys ∧
    named ys = [String.ofList p] ∧ (∀ x ∈ xs.getLast?, idle x = false) ∧
    parent? path = some (String.ofList (head path.toList ++ ['/'].intercalate xs)) ∧
    fileName? path = if String.ofList p = ".." then none else some (String.ofList p) := by
  generalize hbody : (path.toList.drop (head path.toList).length).splitOn '/' = body at h ⊢
  have hpieces : pieces path.toList = body.reverse.dropWhile idle := by
    rw [pieces, Name.cut_eq_splitOn, hbody]
    rfl
  obtain ⟨tail, htail, hsplit, hlast⟩ := exists_dropWhile body.reverse
  cases hrest : body.reverse.dropWhile idle with
  | nil =>
    rw [hrest, List.append_nil] at hsplit
    exact (h (named_of_idle fun x hx => htail x (hsplit ▸ List.mem_reverse.mpr hx))).elim
  | cons p before =>
    rw [hrest] at hsplit hlast hpieces
    obtain ⟨gap, hgap, hbefore, habove⟩ := exists_dropWhile before
    refine ⟨(before.dropWhile idle).reverse, gap.reverse ++ p :: tail.reverse, p, ?_, ?_, ?_, ?_, ?_⟩
    · have hreverse := congrArg List.reverse hsplit
      rw [List.reverse_reverse] at hreverse
      calc body = before.reverse ++ p :: tail.reverse := by rw [hreverse]; simp
        _ = (gap ++ before.dropWhile idle).reverse ++ p :: tail.reverse := by rw [← hbefore]
        _ = _ := by simp
    · have hp : named [p] = [String.ofList p] := by simp [named, hlast p rfl]
      show named (gap.reverse ++ ([p] ++ tail.reverse)) = _
      rw [named_append, named_append, named_of_idle (by simpa using hgap), hp,
        named_of_idle (by simpa using htail)]
      rfl
    · intro x hx
      rw [List.getLast?_reverse] at hx
      exact habove x hx
    · rw [parent?, hpieces]
      rfl
    · have hdots : String.ofList p = ".." ↔ p = ['.', '.'] := by
        rw [← String.toList_inj]
        simp
      rw [fileName?, hpieces]
      simp only [hdots]

theorem named_body (s : List Char) :
    named ((s.drop (head s).length).splitOn '/') = named (s.splitOn '/') := by
  rcases head_cases s with ⟨-, h⟩ | ⟨body, rfl, -, h⟩ | ⟨rfl, -, h⟩ | ⟨body, rfl, -, h⟩
  · rw [h]
  · rw [h, splitOn_slash]
    rfl
  · rw [h]
    rfl
  · rw [h, splitOn_dot_slash, splitOn_slash]
    rfl

/-- The components of the text that joins some. -/
theorem names_ofList_intercalate {parts : List (List Char)} (hne : parts ≠ [])
    (h : ∀ p ∈ parts, '/' ∉ p) : names (String.ofList (['/'].intercalate parts)) = named parts := by
  rw [names_eq, String.toList_ofList, List.splitOn_intercalate _ h hne]

/-- A path that ends in a component that counts is trimmed. -/
theorem trimmed_of_intercalate {s : List Char} {xs : List (List Char)} {x : List Char}
    (hbody : ∃ ys, (s.drop (head s).length).splitOn '/' = xs ++ [x] ++ ys) (hx : idle x = false) :
    Trimmed (String.ofList (head s ++ ['/'].intercalate (xs ++ [x]))) := by
  obtain ⟨ys, hbody⟩ := hbody
  have hslash : '/' ∉ x := by
    refine Name.not_mem_of_mem_splitOn (s := s.drop (head s).length) ?_
    rw [hbody]
    simp
  have hone : ∀ before, ∃ parts, (before ++ '/' :: x).splitOn '/' = parts ++ [x] := fun before =>
    ⟨_, by rw [List.splitOn_append_cons_self, List.splitOn_eq_singleton hslash]⟩
  have hlast : ∃ parts, (head s ++ ['/'].intercalate (xs ++ [x])).splitOn '/' = parts ++ [x] := by
    by_cases hxs : xs = []
    · subst hxs
      rw [List.nil_append, List.intercalate_singleton]
      rcases head_cases s with ⟨h, -⟩ | ⟨body, rfl, h, -⟩ | ⟨rfl, h, hdrop⟩ | ⟨body, rfl, h, hdrop⟩
      · rw [h]
        exact ⟨[], List.splitOn_eq_singleton hslash⟩
      · rw [h]
        exact hone []
      -- After a dot the first component is empty, and would not count.
      · rw [hdrop] at hbody
        cases hbody
        cases hx
      · rw [hdrop, splitOn_slash] at hbody
        cases hbody
        cases hx
    · rw [intercalate_append hxs (by simp), List.intercalate_singleton, ← List.append_assoc]
      exact hone _
  obtain ⟨parts, hparts⟩ := hlast
  exact trimmed_of_splitOn (by rw [String.toList_ofList, hparts]) hx

/-- A path with names is the path above it, a slash and a rest that has its last name. Below the top
and in a path of one component, no slash comes between. -/
theorem exists_parent {path : String} (h : names path ≠ []) : ∃ above rest name,
    parent? path = some above ∧ Trimmed above ∧ names rest = [name] ∧
    fileName? path = (if name = ".." then none else some name) ∧
    (path = above ++ "/" ++ rest ∨ (above = "" ∨ above = "/") ∧ path = above ++ rest) := by
  rw [names_eq, ← named_body] at h
  obtain ⟨xs, ys, p, hbody, hys, hlast, hparent, hfile⟩ := exists_components h
  have hslash : ∀ q ∈ xs ++ ys, '/' ∉ q := fun q hq => Name.not_mem_of_mem_splitOn (hbody ▸ hq)
  have hne : ys ≠ [] := by
    rintro rfl
    cases hys
  have hrest : names (String.ofList (['/'].intercalate ys)) = [String.ofList p] := by
    rw [names_ofList_intercalate hne fun q hq => hslash q (List.mem_append_right xs hq), hys]
  have hjoin : path.toList.drop (head path.toList).length = ['/'].intercalate (xs ++ ys) := by
    rw [← hbody, List.intercalate_splitOn]
  rcases List.eq_nil_or_concat' xs with rfl | ⟨before, last, rfl⟩
  · rw [List.intercalate_nil, List.append_nil] at hparent
    rw [List.nil_append] at hjoin hbody
    rcases head_cases path.toList with ⟨h, hdrop⟩ | ⟨body, hpath, h, hdrop⟩ | ⟨-, -, hdrop⟩ |
      ⟨body, hpath, h, hdrop⟩
    · rw [h] at hparent
      refine ⟨"", _, _, hparent, .inl rfl, hrest, hfile, .inr ⟨.inl rfl, ?_⟩⟩
      rw [← String.toList_inj]
      simp [← hjoin, hdrop]
    · rw [h] at hparent
      refine ⟨"/", _, _, hparent, .inl rfl, hrest, hfile, .inr ⟨.inr rfl, ?_⟩⟩
      have hjoin : ['/'].intercalate ys = body := hjoin.symm.trans hdrop
      rw [hjoin, ← String.toList_inj, hpath]
      simp
    · rw [hdrop] at hbody
      rw [← hbody] at hys
      cases hys
    · rw [h] at hparent
      rw [hdrop, splitOn_slash] at hbody
      have hnames : names (String.ofList body) = [String.ofList p] := by
        rw [names_eq, String.toList_ofList, ← hys, ← hbody]
        rfl
      refine ⟨".", String.ofList body, _, hparent, .inl rfl, hnames, hfile, .inl ?_⟩
      rw [← String.toList_inj, hpath]
      simp
  · have htrimmed : Trimmed (String.ofList (head path.toList ++ ['/'].intercalate (before ++ [last]))) :=
      trimmed_of_intercalate ⟨ys, hbody⟩ (hlast last List.getLast?_concat)
    refine ⟨_, _, _, hparent, htrimmed, hrest, hfile, .inl ?_⟩
    have hall := (head_append path.toList).symm.trans (congrArg (head path.toList ++ ·) hjoin)
    rw [← String.toList_inj]
    refine hall.trans ?_
    rw [intercalate_append (by simp) hne]
    simp

theorem names_of_parent {path above rest name : String} (hrest : names rest = [name])
    (h : path = above ++ "/" ++ rest ∨ (above = "" ∨ above = "/") ∧ path = above ++ rest) :
    names path = names above ++ [name] := by
  rcases h with rfl | ⟨rfl | rfl, rfl⟩
  · rw [names_append, hrest]
  · rw [String.empty_append, hrest]
    rfl
  · have hslash : "/" ++ rest = "" ++ "/" ++ rest := rfl
    rw [hslash, names_append, hrest]
    rfl

end Path

end LayeredConfig
