import Mathlib.Data.List.Sort
import Reckon.Statement.Parser

/-! # The statements of lines

Lines are parsed into the statements of those that are not blank, in order and each with the number
of its line, or into the error of the first that is neither blank nor parsed.
-/

namespace Reckon

section Traversal

variable {α β ε : Type} {f : α → Except ε β} {x : α} {xs us vs : List α} {ys : List β} {e : ε}

theorem mapM_of_forall (h : ∀ x ∈ xs, ∃ y, f x = .ok y) :
    xs.mapM f = .ok (xs.filterMap fun x => (f x).toOption) := by
  induction xs with
  | nil => rfl
  | cons x xs ih =>
    obtain ⟨⟨y, hy⟩, h'⟩ := List.forall_mem_cons.mp h
    rw [List.mapM_cons, hy, ih h', List.filterMap_cons, hy]
    rfl

theorem mapM_append_cons_of_error (hus : ∀ u ∈ us, ∃ y, f u = .ok y) (hx : f x = .error e) :
    (us ++ x :: vs).mapM f = .error e := by
  induction us with
  | nil => simp [List.mapM_cons, hx, bind, Except.bind]
  | cons u us ih =>
    obtain ⟨⟨y, hy⟩, hus'⟩ := List.forall_mem_cons.mp hus
    simp [List.mapM_cons, hy, ih hus', bind, Except.bind]

end Traversal

namespace Statement

variable {options : Options} {lines : List String} {line : String} {n : ℕ} {st : Statement}
  {sts sts' : List (ℕ × Statement)}

/-- The line with this number, counted from one, is not blank. -/
structure IsLine (lines : List String) (n : ℕ) (line : String) : Prop where
  pos : 0 < n
  get : lines[n - 1]? = some line
  not_blank : Text.trim line ≠ ""

theorem IsLine.mem (h : IsLine lines n line) : line ∈ lines :=
  List.mem_of_getElem? h.get

theorem mem_numbered_iff : (n, line) ∈ numbered lines ↔ IsLine lines n line := by
  have hswap : (n, line) ∈ (lines.zipIdx 1).map Prod.swap ↔ 1 ≤ n ∧ lines[n - 1]? = some line := by
    rw [← List.mem_zipIdx_iff_le_and_getElem?_sub (x := (line, n)), List.mem_map]
    constructor
    · rintro ⟨⟨l, m⟩, hm, h⟩
      cases h
      exact hm
    · exact fun h => ⟨(line, n), h, rfl⟩
  rw [numbered, List.mem_filter, hswap, Bool.not_eq_true', String.isEmpty_eq_false_iff]
  exact ⟨fun ⟨⟨hn, hl⟩, hb⟩ => ⟨hn, hl, hb⟩, fun ⟨hn, hl, hb⟩ => ⟨⟨hn, hl⟩, hb⟩⟩

theorem pairwise_numbered (lines : List String) :
    (numbered lines).Pairwise fun p q => p.1 < q.1 := by
  refine List.Pairwise.filter _ ?_
  rw [← List.pairwise_map, List.map_map]
  have hsnd : (lines.zipIdx 1).map (Prod.fst ∘ Prod.swap) = List.range' 1 lines.length :=
    List.zipIdx_map_snd 1 lines
  rw [hsnd]
  exact List.pairwise_lt_range'

/-- The statements are those of the lines that are not blank, each with the number of its line. -/
structure Listing (options : Options) (lines : List String) (sts : List (ℕ × Statement)) : Prop where
  increasing : sts.Pairwise fun p q => p.1 < q.1
  mem_iff : ∀ n st, (n, st) ∈ sts ↔
    ∃ line, IsLine lines n line ∧ parse options line = .ok st
  parsed : ∀ n line, IsLine lines n line → ∃ st, parse options line = .ok st

/-- The line with this number is the first that is neither blank nor parsed, and this is its error. -/
structure FirstFault (options : Options) (lines : List String) (n : ℕ) (e : ParseError) : Prop where
  exists_line : ∃ line, IsLine lines n line ∧ parse options line = .error e
  first : ∀ m < n, ∀ line, IsLine lines m line → ∃ st, parse options line = .ok st

def parseNumbered (options : Options) (l : ℕ × String) : Except Error (ℕ × Statement) :=
  match parse options l.2 with
  | .ok st => .ok (l.1, st)
  | .error e => .error ((Error.parse e).atLine l.1)

theorem parseLines_eq_mapM (options : Options) (lines : List String) :
    parseLines options lines = (numbered lines).mapM (parseNumbered options) := rfl

theorem parseNumbered_of_ok (h : parse options line = .ok st) (n : ℕ) :
    parseNumbered options (n, line) = .ok (n, st) := by
  rw [parseNumbered, h]

theorem parseNumbered_of_error {e : ParseError} (h : parse options line = .error e) (n : ℕ) :
    parseNumbered options (n, line) = .error (.line n (.parse e)) := by
  rw [parseNumbered, h]
  rfl

theorem toOption_parseNumbered_eq_some_iff {l : ℕ × String} :
    (parseNumbered options l).toOption = some (n, st) ↔ n = l.1 ∧ parse options l.2 = .ok st := by
  obtain ⟨m, line⟩ := l
  cases h : parse options line with
  | ok st' =>
    rw [parseNumbered_of_ok h]
    simp [Except.toOption, eq_comm]
  | error e =>
    rw [parseNumbered_of_error h]
    simp [Except.toOption]

/-- The statements of the lines that are parsed and not blank, each with the number of its line when
the lines are counted from `n`. -/
def listed (options : Options) (n : ℕ) (lines : List String) : List (ℕ × Statement) :=
  (((lines.zipIdx n).map Prod.swap).filter fun (_, line) => !(Text.trim line).isEmpty).filterMap
    fun l => (parseNumbered options l).toOption

theorem parseLines_of_forall
    (h : ∀ n line, IsLine lines n line → ∃ st, parse options line = .ok st) :
    parseLines options lines = .ok (listed options 1 lines) := by
  refine (parseLines_eq_mapM options lines).trans (mapM_of_forall ?_)
  rintro ⟨n, line⟩ hl
  obtain ⟨st, hst⟩ := h n line (mem_numbered_iff.mp hl)
  exact ⟨_, parseNumbered_of_ok hst n⟩

theorem listed_append (options : Options) (n : ℕ) (us vs : List String) :
    listed options n (us ++ vs) = listed options n us ++ listed options (n + us.length) vs := by
  simp only [listed, List.zipIdx_append, List.map_append, List.filter_append, List.filterMap_append]

theorem listed_cons (options : Options) (n : ℕ) (line : String) (lines : List String) :
    listed options n (line :: lines) = (if Text.trim line = "" then [] else
      ((parse options line).toOption.map fun st => (n, st)).toList) ++ listed options (n + 1) lines := by
  by_cases hb : Text.trim line = ""
  · simp [listed, hb]
  · cases h : parse options line with
    | ok st => simp [listed, hb, parseNumbered_of_ok h, Except.toOption]
    | error e => simp [listed, hb, parseNumbered_of_error h, Except.toOption]

theorem listed_cons_of_blank (h : Text.trim line = "") (options : Options) (n : ℕ)
    (lines : List String) : listed options n (line :: lines) = listed options (n + 1) lines := by
  rw [listed_cons, if_pos h, List.nil_append]

theorem listed_cons_of_parse (hb : Text.trim line ≠ "") (h : parse options line = .ok st) (n : ℕ)
    (lines : List String) :
    listed options n (line :: lines) = (n, st) :: listed options (n + 1) lines := by
  rw [listed_cons, if_neg hb, h]
  rfl

theorem listed_add (options : Options) (n d : ℕ) (lines : List String) :
    listed options (n + d) lines =
      (listed options n lines).map fun p => (p.1 + d, p.2) := by
  induction lines generalizing n with
  | nil => rfl
  | cons line lines ih =>
    rw [listed_cons, listed_cons, List.map_append, ← ih, Nat.add_right_comm]
    congr 1
    split
    · rfl
    · cases (parse options line).toOption <;> rfl

theorem exists_listing (h : ∀ n line, IsLine lines n line → ∃ st, parse options line = .ok st) :
    ∃ sts, parseLines options lines = .ok sts ∧ Listing options lines sts := by
  refine ⟨_, parseLines_of_forall h, ?_, ?_, h⟩
  · refine List.pairwise_filterMap.mpr ((pairwise_numbered lines).imp ?_)
    rintro l l' hlt ⟨n, st⟩ hst ⟨n', st'⟩ hst'
    obtain ⟨rfl, -⟩ := toOption_parseNumbered_eq_some_iff.mp hst
    obtain ⟨rfl, -⟩ := toOption_parseNumbered_eq_some_iff.mp hst'
    exact hlt
  · intro n st
    simp only [listed, List.mem_filterMap, toOption_parseNumbered_eq_some_iff]
    constructor
    · rintro ⟨⟨m, line⟩, hl, rfl, hst⟩
      exact ⟨line, mem_numbered_iff.mp hl, hst⟩
    · rintro ⟨line, hl, hst⟩
      exact ⟨(n, line), mem_numbered_iff.mpr hl, rfl, hst⟩

theorem Listing.unique (h : Listing options lines sts) (h' : Listing options lines sts') :
    sts = sts' := by
  have : Std.Antisymm fun p q : ℕ × Statement => p.1 < q.1 :=
    ⟨fun _ _ hpq hqp => absurd hpq (lt_asymm hqp)⟩
  have : Std.Irrefl fun p q : ℕ × Statement => p.1 < q.1 := ⟨fun p => lt_irrefl p.1⟩
  exact h.increasing.eq_of_mem_iff h'.increasing fun ⟨n, st⟩ =>
    (h.mem_iff n st).trans (h'.mem_iff n st).symm

theorem FirstFault.parseLines_eq {e : ParseError} (h : FirstFault options lines n e) :
    parseLines options lines = .error (.line n (.parse e)) := by
  obtain ⟨⟨line, hl, he⟩, hfirst⟩ := h
  obtain ⟨us, vs, hsplit⟩ := List.append_of_mem (mem_numbered_iff.mpr hl)
  have hlt := List.pairwise_append.mp (hsplit ▸ pairwise_numbered lines) |>.2.2
  rw [parseLines_eq_mapM, hsplit]
  refine mapM_append_cons_of_error ?_ (parseNumbered_of_error he n)
  rintro ⟨m, l⟩ hm
  have hml : IsLine lines m l := mem_numbered_iff.mp (hsplit ▸ List.mem_append_left _ hm)
  obtain ⟨st, hst⟩ := hfirst m (hlt _ hm _ List.mem_cons_self) l hml
  exact ⟨_, parseNumbered_of_ok hst m⟩

theorem parsed_or_firstFault (options : Options) (lines : List String) :
    (∀ n line, IsLine lines n line → ∃ st, parse options line = .ok st) ∨
      ∃ n e, FirstFault options lines n e := by
  by_cases h : ∃ n line, IsLine lines n line ∧ ∃ e, parse options line = .error e
  · right
    classical
    obtain ⟨line, hl, e, he⟩ := Nat.find_spec h
    refine ⟨Nat.find h, e, ⟨line, hl, he⟩, fun m hm l hml => ?_⟩
    cases hp : parse options l with
    | ok st => exact ⟨st, rfl⟩
    | error f => exact absurd ⟨l, hml, f, hp⟩ (Nat.find_min h hm)
  · left
    intro n line hl
    cases hp : parse options line with
    | ok st => exact ⟨st, rfl⟩
    | error f => exact absurd ⟨n, line, hl, f, hp⟩ h

theorem parseLines_eq_ok_iff :
    parseLines options lines = .ok sts ↔ Listing options lines sts := by
  constructor
  · intro h
    rcases parsed_or_firstFault options lines with hp | ⟨n, e, hf⟩
    · obtain ⟨sts', h', hl⟩ := exists_listing hp
      obtain rfl := Except.ok.inj (h.symm.trans h')
      exact hl
    · cases h.symm.trans hf.parseLines_eq
  · intro h
    obtain ⟨sts', h', hl⟩ := exists_listing h.parsed
    rw [h', hl.unique h]

end Statement

end Reckon
