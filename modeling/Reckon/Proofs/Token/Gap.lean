import Mathlib.Data.List.Basic
import Reckon.Expr.Parser
import Reckon.Proofs.Token.Unique

/-! # Gaps between tokens

White space and symbols stop every number and every name before them. So a text can be scanned by
itself up to where one of them follows, and white space that is put between lexemes changes neither
the items of a source nor what they are parsed as.
-/

namespace Reckon

namespace Token

variable {c : Char} {t : Token} {item : Item} {text rest rest' ds : List Char} {gap : ℕ → String}
  {start : ℕ}

/-- Whether no number and no name goes on with the character. -/
def stops (c : Char) : Bool :=
  !c.isDigit && !isLetter c && c != '.'

theorem stops_iff : stops c = true ↔ c.isDigit = false ∧ isLetter c = false ∧ c ≠ '.' := by
  simp only [stops, Bool.and_eq_true, Bool.not_eq_true', bne_iff_ne, and_assoc]

theorem stops_of_isSpace (h : isSpace c = true) : stops c = true := by
  rcases isSpace_iff.mp h with rfl | rfl | rfl | rfl | rfl <;> rfl

theorem stops_of_symbol? (h : symbol? c = some t) : stops c = true := by
  unfold symbol? at h
  split at h
  case h_8 => cases h
  all_goals rfl

theorem Longest.of_head (h : Longest item text rest)
    (hr : ∀ c ∈ rest'.head?, c ∈ rest.head? ∨ stops c = true) : Longest item text rest' := by
  cases h with
  | whole hne hd hrest =>
    refine .whole hne hd fun c hc => ?_
    rcases hr c hc with h | h
    · exact hrest c h
    · obtain ⟨hdigit, -, hpoint⟩ := stops_iff.mp h
      exact ⟨hdigit, hpoint⟩
  | fraction hne hd hf hrest =>
    refine .fraction hne hd hf fun c hc => ?_
    rcases hr c hc with h | h
    · exact hrest c h
    · exact (stops_iff.mp h).1
  | name hne hl hrest =>
    refine .name hne hl fun c hc => ?_
    rcases hr c hc with h | h
    · exact hrest c h
    · exact (stops_iff.mp h).2.1
  | operator op hop => exact .operator op hop
  | opening => exact .opening
  | closing => exact .closing
  | rejected hspace hdigit hletter hsymbol => exact .rejected hspace hdigit hletter hsymbol

theorem Longest.ne_nil (h : Longest item text rest) : text ≠ [] := by
  obtain ⟨c, cs, -, -, -, rfl⟩ := h.exists_first
  exact Piece.first_text_ne_nil c cs

theorem Longest.scanFrom_append (h : Longest item text rest) (start : ℕ) :
    scanFrom start (text ++ rest) =
      ⟨start, .ofList text, item⟩ :: scanFrom (start + byteCount text) rest := by
  obtain ⟨c, cs, hcs, hspace, rfl, htext⟩ := h.exists_first
  obtain rfl : rest = (Piece.first c cs).rest := by
    have hcut : text ++ rest = text ++ (Piece.first c cs).rest := by
      rw [hcs, htext, Piece.first_text_append_rest]
    exact List.append_cancel_left hcut
  rw [hcs, scanFrom, if_neg (Bool.eq_false_iff.mp hspace), htext]
  rfl

theorem Longest.itemsOf_append (h : Longest item text rest) :
    itemsOf (text ++ rest) = item :: itemsOf rest := by
  rw [itemsOf, h.scanFrom_append, List.map_cons]
  exact congrArg _ (map_item_scanFrom ..)

/-- A scan passes over white space and takes what is longest, from any place on. -/
@[elab_as_elim]
theorem scan_induction {P : ℕ → List Char → Prop} (nil : ∀ start, P start [])
    (space : ∀ start c cs, isSpace c = true → P (start + c.utf8Size) cs → P start (c :: cs))
    (lexeme : ∀ start item text rest, Longest item text rest →
      P (start + byteCount text) rest → P start (text ++ rest))
    (start : ℕ) (cs : List Char) : P start cs := by
  fun_induction scanFrom start cs with
  | case1 start => exact nil start
  | case2 start c cs hc ih => exact space start c cs hc ih
  | case3 start c cs hc piece l ih =>
    have hl := longest_first (Bool.eq_false_iff.mpr hc) cs
    rw [← Piece.first_text_append_rest c cs]
    apply lexeme start _ _ _ hl
    rwa [stop_eq, String.toList_ofList] at ih

theorem itemsOf_append (cs : List Char) (h : ∀ d ∈ ds.head?, stops d = true) :
    itemsOf (cs ++ ds) = itemsOf cs ++ itemsOf ds := by
  induction 0, cs using scan_induction with
  | nil => simp
  | space start c cs hc ih => rw [List.cons_append, itemsOf_space hc, itemsOf_space hc, ih]
  | lexeme start item text rest hl ih =>
    have hl' : Longest item text (rest ++ ds) := by
      apply hl.of_head
      intro c hc
      cases rest with
      | nil => exact .inr (h c hc)
      | cons d rest => exact .inl hc
    rw [List.append_assoc, hl'.itemsOf_append, hl.itemsOf_append, ih, List.cons_append]

theorem itemsOf_spaces_append {cs : List Char} (h : ∀ c ∈ cs, isSpace c = true) (ds : List Char) :
    itemsOf (cs ++ ds) = itemsOf ds := by
  induction cs with
  | nil => rfl
  | cons c cs ih =>
    obtain ⟨hc, hcs⟩ := List.forall_mem_cons.mp h
    exact (itemsOf_space hc _).trans (ih hcs)

/-- The characters with a gap put before each of them and behind the last. -/
def spreadFrom (gap : ℕ → String) (start : ℕ) : List Char → List Char
  | [] => (gap start).toList
  | c :: cs => (gap start).toList ++ c :: spreadFrom gap (start + c.utf8Size) cs

/-- The source with gaps put at its places, which are counted in bytes. -/
def spread (gap : ℕ → String) (source : String) : String :=
  .ofList (spreadFrom gap 0 source.toList)

theorem spreadFrom_append (hne : text ≠ [])
    (h : ∀ place, start < place → place < start + byteCount text → gap place = "")
    (rest : List Char) : spreadFrom gap start (text ++ rest) =
      (gap start).toList ++ (text ++ spreadFrom gap (start + byteCount text) rest) := by
  induction text generalizing start with
  | nil => exact absurd rfl hne
  | cons c text ih =>
    have hc := c.utf8Size_pos
    rw [byteCount_cons] at h ⊢
    cases text with
    | nil => rfl
    | cons d text =>
      have hd := byteCount_pos (List.cons_ne_nil d text)
      have hgap : gap (start + c.utf8Size) = "" := h _ (by omega) (by omega)
      rw [List.cons_append, spreadFrom, ih (List.cons_ne_nil d text)
        fun place hlt hle => h place (by omega) (by omega), hgap, Nat.add_assoc]
      rfl

theorem head?_spreadFrom (hs : ∀ place, ∀ c ∈ (gap place).toList, isSpace c = true) (start : ℕ)
    (cs : List Char) :
    ∀ c ∈ (spreadFrom gap start cs).head?, c ∈ cs.head? ∨ stops c = true := by
  intro c hc
  cases hg : (gap start).toList with
  | nil =>
    left
    cases cs with
    | nil => simp [spreadFrom, hg] at hc
    | cons d cs => simpa [spreadFrom, hg] using hc
  | cons d ds =>
    right
    obtain rfl : d = c := by
      cases cs <;> simpa [spreadFrom, hg] using hc
    apply stops_of_isSpace
    exact hs start d (by simp [hg])

/-- No lexeme goes on across the place. -/
def IsBoundary (ls : List Lexeme) (place : ℕ) : Prop :=
  ∀ l ∈ ls, place ≤ l.start ∨ l.stop ≤ place

instance (ls : List Lexeme) : DecidablePred (IsBoundary ls) :=
  fun place => inferInstanceAs (Decidable (∀ l ∈ ls, place ≤ l.start ∨ l.stop ≤ place))

theorem itemsOf_spreadFrom (hs : ∀ place, ∀ c ∈ (gap place).toList, isSpace c = true) (start : ℕ)
    (cs : List Char) (hb : ∀ place, gap place ≠ "" → IsBoundary (scanFrom start cs) place) :
    itemsOf (spreadFrom gap start cs) = itemsOf cs := by
  induction start, cs using scan_induction with
  | nil start =>
    have h := itemsOf_spaces_append (hs start) []
    rwa [List.append_nil] at h
  | space start c cs hc ih =>
    rw [scanFrom, if_pos hc] at hb
    rw [spreadFrom, itemsOf_spaces_append (hs start), itemsOf_space hc, itemsOf_space hc, ih hb]
  | lexeme start item text rest hl ih =>
    rw [hl.scanFrom_append] at hb
    have hinside : ∀ place, start < place → place < start + byteCount text → gap place = "" := by
      intro place hlt hle
      by_contra hne
      have hplace : place ≤ start ∨ start + byteCount text ≤ place := by
        simpa [stop_eq] using hb place hne _ List.mem_cons_self
      omega
    have hrest := ih fun place hne l hm => hb place hne l (List.mem_cons_of_mem _ hm)
    have hl' := hl.of_head (head?_spreadFrom hs (start + byteCount text) rest)
    rw [spreadFrom_append hl.ne_nil hinside, itemsOf_spaces_append (hs start),
      hl'.itemsOf_append, hl.itemsOf_append, hrest]

end Token

namespace Expr

open Token

variable {options : Options} {source source' : String} {gap : ℕ → String}

/-- Two sources come to the same: to one tree, to one unexpected token, or each to the error that
it is no expression itself. -/
inductive SameResult (options : Options) (source source' : String) : Prop
  | tree (e : Expr) (h : parse options source = .ok e) (h' : parse options source' = .ok e)
  | unexpected (symbol : String) (h : parse options source = .error (.unexpectedToken symbol))
      (h' : parse options source' = .error (.unexpectedToken symbol))
  | invalid (h : parse options source = .error (.invalidExpression source))
      (h' : parse options source' = .error (.invalidExpression source'))

theorem sameResult_of_items (options : Options) (h : items source = items source') :
    SameResult options source source' := by
  have hparse : parse options source' =
      (ofItems options (items source)).mapError (Fault.toError source') := by rw [parse, h]
  cases hr : ofItems options (items source) with
  | ok e =>
    rw [hr] at hparse
    exact .tree e (by rw [parse, hr]; rfl) hparse
  | error f =>
    rw [hr] at hparse
    cases f with
    | unexpected symbol => exact .unexpected symbol (by rw [parse, hr]; rfl) hparse
    | malformed => exact .invalid (by rw [parse, hr]; rfl) hparse

/-- White space that is put at boundaries of a source leaves its tokens and rejected characters as
they are, and what they are parsed as. -/
theorem items_spread (hs : ∀ place, ∀ c ∈ (gap place).toList, isSpace c = true)
    (hb : ∀ place, gap place ≠ "" → IsBoundary (scan source) place) :
    items (spread gap source) = items source ∧
      ∀ options, SameResult options source (spread gap source) := by
  have hitems : items (spread gap source) = items source := by
    have h := itemsOf_spreadFrom hs 0 source.toList hb
    rwa [← String.toList_ofList (l := spreadFrom gap 0 source.toList)] at h
  exact ⟨hitems, fun options => sameResult_of_items options hitems.symm⟩

/-- The second point of a number is rejected however far it stands from the number. -/
theorem items_spread_points :
    (∀ place, ∀ c ∈ (if place ∈ [0, 3, 4, 7] then " \n" else "").toList, isSpace c = true) ∧
    (∀ place, (if place ∈ [0, 3, 4, 7] then " \n" else "") ≠ "" →
      IsBoundary (scan "1.2.3é") place) ∧
    items " \n1.2 \n. \n3é \n" = items "1.2.3é" ∧
      ∀ options, SameResult options "1.2.3é" " \n1.2 \n. \n3é \n" := by
  have hs : ∀ place, ∀ c ∈ (if place ∈ [0, 3, 4, 7] then " \n" else "").toList,
      isSpace c = true := by
    intro place
    split
    · exact List.all_eq_true.mp (by decide +kernel)
    · exact List.all_eq_true.mp (by decide +kernel)
  have hb : ∀ place, (if place ∈ [0, 3, 4, 7] then " \n" else "") ≠ "" →
      IsBoundary (scan "1.2.3é") place := by
    have hall : ∀ place ∈ [0, 3, 4, 7], IsBoundary (scan "1.2.3é") place := by decide +kernel
    intro place hne
    apply hall
    by_contra hp
    exact hne (if_neg hp)
  have h := items_spread hs hb
  have hspread : spread (fun place => if place ∈ [0, 3, 4, 7] then " \n" else "") "1.2.3é" =
      " \n1.2 \n. \n3é \n" := by decide +kernel
  rw [hspread] at h
  exact ⟨hs, hb, h⟩

end Expr

end Reckon
