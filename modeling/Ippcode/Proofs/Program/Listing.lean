import Ippcode.Proofs.Analysis.Canonical
import Ippcode.Proofs.Source.TextLines

/-!
# The listing of a program, read back

* `argumentsOf?`, `rowOf?`, `ofListing?`   what the cell of the arguments, a line and the whole
                                           text say;
* `AlignedAt x y i r`   the line `r` shows the instruction `i`, with its opcode in column `x` and
                        its arguments in column `y`;
* `alignedAt_row`       a line of a listing is so, with the columns of its program;
* `rowOf?_of_alignedAt` what such a line says does not depend on the columns.

`parse_listing`: all of a program that was read is said by its listing.  That rests on one thing
about such programs, which is that no opcode and no text of an argument has a blank or a line end in
it.
-/

namespace Ippcode

open Text Utf8 Source

theorem Argument.clean_kind (a : Argument) : ∀ c ∈ a.kind, c ∉ boundaries := by
  cases a <;> simp only [kind] <;> decide

/-- The text of an argument is a part of its spelling. -/
theorem Argument.clean_text {a : Argument} (h : a.IsWellSpelled) :
    ∀ c ∈ a.text, c ∉ boundaries := by
  intro c hc
  apply a.clean_spelling h
  unfold spelling
  split
  · exact List.mem_append_right _ (List.mem_cons_of_mem _ hc)
  · exact hc

theorem IsAccepted.lineFeed_notMem {x : Text × List Argument} (h : IsAccepted x) : '\n' ∉ x.1 :=
  fun hm => h.clean_opcode _ hm (by decide)

namespace Program

/-! ## the cell of the arguments -/

/-- The words of a cell: the kind of an argument in brackets, then its text, which may be empty,
with a comma where another argument follows. -/
def argumentWords : List Argument → List Text
  | [] => []
  | a :: as =>
    ('[' :: (a.kind ++ [']'])) :: (a.text ++ if as = [] then [] else [',']) :: argumentWords as

theorem argumentWords_eq_nil_iff {as : List Argument} : argumentWords as = [] ↔ as = [] := by
  cases as <;> simp [argumentWords]

theorem joined_cons_of_ne_nil (sep t : Text) {ts : List Text} (h : ts ≠ []) :
    joined sep (t :: ts) = t ++ (sep ++ joined sep ts) := by
  obtain ⟨u, us, rfl⟩ := List.exists_cons_of_ne_nil h
  exact joined_cons_cons sep t u us

theorem argumentsCell_eq (as : List Argument) :
    argumentsCell as = joined [' '] (argumentWords as) := by
  induction as with
  | nil => rfl
  | cons a as ih =>
    rw [argumentWords, joined_cons_cons]
    by_cases has : as = []
    · rw [has, argumentWords, if_pos rfl, joined_singleton, argumentsCell, List.map_singleton,
        joined_singleton, argumentCell]
      simp
    · have hmap : as.map argumentCell ≠ [] := by simpa using has
      have hwords : argumentWords as ≠ [] := by rwa [Ne, argumentWords_eq_nil_iff]
      rw [if_neg has, joined_cons_of_ne_nil _ _ hwords, ← ih, argumentsCell, List.map_cons,
        joined_cons_of_ne_nil _ _ hmap, argumentCell]
      simp [argumentsCell]

/-- the arguments that the words of a cell say -/
def argumentsOf? : List Text → Option (List Argument)
  | [] => some []
  | [_] => none
  | kind :: text :: ws =>
    (Argument.ofKind? kind.tail.dropLast (if ws = [] then text else text.dropLast)).bind fun a =>
      (argumentsOf? ws).map fun as => a :: as

theorem argumentsOf?_argumentWords (as : List Argument) :
    argumentsOf? (argumentWords as) = some as := by
  induction as with
  | nil => rfl
  | cons a as ih =>
    have hkind : ('[' :: (a.kind ++ [']'])).tail.dropLast = a.kind := List.dropLast_concat
    rw [argumentWords, argumentsOf?, hkind, ih]
    by_cases has : as = []
    · rw [if_pos (argumentWords_eq_nil_iff.mpr has), if_pos has, List.append_nil, a.ofKind?_kind]
      rfl
    · rw [if_neg (mt argumentWords_eq_nil_iff.mp has), if_neg has, List.dropLast_concat,
        a.ofKind?_kind]
      rfl

theorem clean_argumentWords {as : List Argument} (h : ∀ a ∈ as, a.IsWellSpelled) :
    ∀ w ∈ argumentWords as, ∀ c ∈ w, c ∉ boundaries := by
  induction as with
  | nil => simp [argumentWords]
  | cons a as ih =>
    rw [List.forall_mem_cons] at h
    have hcomma : ∀ c ∈ (if as = [] then [] else [',']), c ∉ boundaries := by
      split <;> decide
    refine List.forall_mem_cons.mpr ⟨?_, List.forall_mem_cons.mpr ⟨?_, ih h.2⟩⟩
    · exact List.forall_mem_cons.mpr
        ⟨by decide, List.forall_mem_append.mpr ⟨a.clean_kind, by decide⟩⟩
    · exact List.forall_mem_append.mpr ⟨a.clean_text h.1, hcomma⟩

theorem exists_argumentsCell_cons (a : Argument) (as : List Argument) :
    ∃ t, argumentsCell (a :: as) = '[' :: t := by
  rw [argumentsCell_eq, argumentWords, joined_cons_cons]
  exact ⟨_, rfl⟩

theorem head?_argumentsCell {as : List Argument} {c : Char}
    (h : (argumentsCell as).head? = some c) : c = '[' := by
  cases as with
  | nil => cases h
  | cons a as =>
    obtain ⟨t, ht⟩ := exists_argumentsCell_cons a as
    rw [ht] at h
    exact (Option.some.inj h).symm

theorem clean_argumentsCell {as : List Argument} (h : ∀ a ∈ as, a.IsWellSpelled) :
    ∀ c ∈ argumentsCell as, c = ' ' ∨ c ∉ boundaries := by
  intro c hc
  rw [argumentsCell_eq] at hc
  rcases mem_joined hc with hc | ⟨w, hw, hc⟩
  · exact .inl (List.mem_singleton.mp hc)
  · exact .inr (clean_argumentWords h w hw c hc)

/-- the arguments in a cell, of which there are none if it is empty -/
def cellOf? (cell : Text) : Option (List Argument) :=
  if cell = [] then some [] else argumentsOf? (cell.splitOn ' ')

theorem cellOf?_argumentsCell {as : List Argument} (h : ∀ a ∈ as, a.IsWellSpelled) :
    cellOf? (argumentsCell as) = some as := by
  cases as with
  | nil => rfl
  | cons a as =>
    have hne : argumentsCell (a :: as) ≠ [] := by
      obtain ⟨t, ht⟩ := exists_argumentsCell_cons a as
      rw [ht]
      exact List.cons_ne_nil _ _
    have hwords : argumentWords (a :: as) ≠ [] := List.cons_ne_nil _ _
    have hblank : ∀ w ∈ argumentWords (a :: as), ' ' ∉ w := by
      intro w hw hm
      exact clean_argumentWords h w hw ' ' hm (by decide)
    have hsplit : (argumentsCell (a :: as)).splitOn ' ' = argumentWords (a :: as) := by
      rw [argumentsCell_eq]
      exact List.splitOn_intercalate ' ' hblank hwords
    rw [cellOf?, if_neg hne, hsplit, argumentsOf?_argumentWords]

/-! ## lines -/

/-- the width of the widest number -/
def orderWidth (p : Program) : Nat := widest (p.toList.map fun i => orderCell i.order)

/-- the width of the widest opcode -/
def opcodeWidth (p : Program) : Nat := widest (p.toList.map fun i => i.opcode)

/-- the column in which the opcodes begin -/
def opcodeColumn (p : Program) : Nat := p.orderWidth + 1

/-- the column in which the arguments begin -/
def argumentsColumn (p : Program) : Nat := p.opcodeColumn + (p.opcodeWidth + 1)

/-- the line of an instruction, without its end -/
def row (p : Program) (i : Instruction) : Text :=
  padded p.orderWidth (orderCell i.order) ++ padded p.opcodeWidth i.opcode ++
    argumentsCell i.arguments

def rows (p : Program) : List Text := p.toList.map p.row

theorem length_rows (p : Program) : p.rows.length = p.size := by
  rw [rows, List.length_map, length_toList]

theorem listing_eq (p : Program) : p.listing = ofLines p.rows := by
  rw [ofLines, rows, List.flatMap_map]
  rfl

/-- The number stands in front of column `x`, the opcode begins there, and the arguments, if there
are any, begin in column `y`; what is left of the line is blank. -/
def AlignedAt (x y : Nat) (i : Instruction) (r : Text) : Prop :=
  ∃ l m n : Nat,
    r = List.replicate l ' ' ++ (decimal i.order ++ [':'] ++ (List.replicate (m + 1) ' ' ++
      (i.opcode ++ (List.replicate (n + 1) ' ' ++ argumentsCell i.arguments)))) ∧
    l + (decimal i.order).length + 1 + (m + 1) = x ∧ x + i.opcode.length + (n + 1) = y

theorem padded_eq (width : Nat) (cell : Text) :
    padded width cell = cell ++ List.replicate (width - places cell + 1) ' ' := by
  rw [padded, List.replicate_succ', List.append_assoc]

theorem clean_decimal (n : Nat) : ∀ c ∈ decimal n, c ∉ boundaries := by
  intro c hc
  have hdigit := Nat.isDigit_of_mem_toDigits (by decide) (by decide) hc
  exact notMem_boundaries (q := Char.isDigit) (by decide) hdigit

theorem lineFeed_notMem_orderCell (n : Nat) : '\n' ∉ orderCell n := by
  have hdecimal : '\n' ∉ decimal n := fun hc => clean_decimal n _ hc (by decide)
  rw [orderCell, List.leftpad]
  simp [hdecimal]

theorem alignedAt_row {p : Program} {i : Instruction} (hi : i ∈ p.toList) (h : '\n' ∉ i.opcode) :
    AlignedAt p.opcodeColumn p.argumentsColumn i (p.row i) := by
  have horder : places (orderCell i.order) ≤ p.orderWidth :=
    places_le_widest (List.mem_map_of_mem hi)
  have hopcode : places i.opcode ≤ p.opcodeWidth := places_le_widest (List.mem_map_of_mem hi)
  -- a cell that is filled up is as wide as its column
  have hx := length_padded (lineFeed_notMem_orderCell i.order) horder
  have hy := length_padded h hopcode
  rw [padded_eq, List.length_append, List.length_replicate] at hx hy
  refine ⟨4 - (decimal i.order).length, p.orderWidth - places (orderCell i.order),
    p.opcodeWidth - places i.opcode, ?_, ?_, ?_⟩
  · rw [row, padded_eq, padded_eq, orderCell, List.leftpad]
    simp only [List.append_assoc]
  · rw [opcodeColumn, ← hx, orderCell, List.leftpad]
    simp only [List.length_append, List.length_replicate, List.length_singleton]
  · rw [argumentsColumn, Nat.add_assoc, hy]

/-- what a line says, apart from the number -/
def rowOf? (r : Text) : Option (Text × List Argument) :=
  let shown := afterWord (r.dropWhile isSeparator)
  (cellOf? (afterWord shown)).map fun as => (word shown, as)

theorem isGap_replicate (n : Nat) : IsGap (List.replicate (n + 1) ' ') := by
  refine ⟨by simp, ?_⟩
  intro c hc
  rw [List.eq_of_mem_replicate hc]
  rfl

theorem head?_append_word {w : Text} (h : IsWord w) (t : Text) {c : Char}
    (hc : (w ++ t).head? = some c) : isSeparator c = false := by
  obtain ⟨d, u, rfl⟩ := List.exists_cons_of_ne_nil h.1
  rw [← Option.some.inj hc]
  exact h.2 d (List.mem_cons_self ..)

/-- **A line says its instruction, whatever its columns are.** -/
theorem rowOf?_of_alignedAt {x y : Nat} {i : Instruction} {r : Text} (h : AlignedAt x y i r)
    (hopcode : IsWord i.opcode) (hwell : ∀ a ∈ i.arguments, a.IsWellSpelled) :
    rowOf? r = some (i.opcode, i.arguments) := by
  obtain ⟨l, m, n, rfl, -, -⟩ := h
  have hnumber : IsWord (decimal i.order ++ [':']) :=
    isWord_of_clean (by simp) (List.forall_mem_append.mpr ⟨clean_decimal i.order, by decide⟩)
  have hblank : ∀ c ∈ List.replicate l ' ', isSeparator c = true := by
    intro c hc
    rw [List.eq_of_mem_replicate hc]
    rfl
  have hcell : ∀ c, (argumentsCell i.arguments).head? = some c → isSeparator c = false := by
    intro c hc
    rw [head?_argumentsCell hc]
    rfl
  -- the number is left out, and then the opcode is the first word
  have hshown : afterWord ((List.replicate l ' ' ++ (decimal i.order ++ [':'] ++
      (List.replicate (m + 1) ' ' ++ (i.opcode ++ (List.replicate (n + 1) ' ' ++
        argumentsCell i.arguments))))).dropWhile isSeparator)
      = i.opcode ++ (List.replicate (n + 1) ' ' ++ argumentsCell i.arguments) := by
    rw [dropWhile_append_eq_right hblank fun c hc => head?_append_word hnumber _ hc,
      afterWord_append hnumber.2,
      afterWord_gap (isGap_replicate m) fun c hc => head?_append_word hopcode _ hc]
  have hrest := afterWord_gap (isGap_replicate n) hcell
  rw [rowOf?, hshown, afterWord_append hopcode.2, hrest, cellOf?_argumentsCell hwell,
    word_append hopcode.2, word_gap (isGap_replicate n), List.append_nil]
  rfl

/-- No line end stands inside a line. -/
theorem lineFeed_notMem_of_alignedAt {x y : Nat} {i : Instruction} {r : Text}
    (h : AlignedAt x y i r) (hopcode : '\n' ∉ i.opcode)
    (hwell : ∀ a ∈ i.arguments, a.IsWellSpelled) : '\n' ∉ r := by
  obtain ⟨l, m, n, rfl, -, -⟩ := h
  have hdecimal : '\n' ∉ decimal i.order := fun hc => clean_decimal _ _ hc (by decide)
  have hcell : '\n' ∉ argumentsCell i.arguments := by
    intro hc
    rcases clean_argumentsCell hwell _ hc with h | h
    · exact absurd h (by decide)
    · exact h (by decide)
  simp [hdecimal, hopcode, hcell]

/-! ## the whole text -/

/-- the program that a listing says -/
def ofListing? (t : Text) : Option Program :=
  ((t.splitOn '\n').dropLast.mapM rowOf?).map ofList

/-- the opcodes and arguments of a program -/
def said (p : Program) : Said := p.toList.map fun i => (i.opcode, i.arguments)

theorem said_ofList (xs : Said) : (ofList xs).said = xs := by
  rw [said, toList_ofList, List.map_map]
  exact List.zipIdx_map_fst 1 xs

section

variable {xs : Said} (h : ∀ x ∈ xs, IsAccepted x)

include h

theorem isAccepted_of_mem : ∀ i ∈ (ofList xs).toList, IsAccepted (i.opcode, i.arguments) := by
  intro i hi
  apply h
  rw [← said_ofList xs]
  exact List.mem_map_of_mem hi

theorem forall₂_alignedAt : List.Forall₂ (AlignedAt (ofList xs).opcodeColumn
    (ofList xs).argumentsColumn) (ofList xs).toList (ofList xs).rows := by
  refine List.forall₂_map_right_iff.mpr (List.forall₂_same.mpr fun i hi => ?_)
  exact alignedAt_row hi (isAccepted_of_mem h i hi).lineFeed_notMem

theorem lineFeed_notMem_rows : ∀ r ∈ (ofList xs).rows, '\n' ∉ r := by
  refine List.forall_mem_map.mpr fun i hi => ?_
  have hx := isAccepted_of_mem h i hi
  exact lineFeed_notMem_of_alignedAt (alignedAt_row hi hx.lineFeed_notMem) hx.lineFeed_notMem
    hx.isWellSpelled

/-- **The listing says the program.** -/
theorem ofListing?_listing : ofListing? (ofList xs).listing = some (ofList xs) := by
  have hlines : ((ofList xs).listing.splitOn '\n').dropLast = (ofList xs).rows := by
    have hsplit := splitOn_ofLines_append (lineFeed_notMem_rows h) (q := []) List.not_mem_nil
    rw [List.append_nil] at hsplit
    rw [listing_eq, hsplit, List.dropLast_concat]
  have hrow : ∀ i ∈ (ofList xs).toList,
      rowOf? ((ofList xs).row i) = some (i.opcode, i.arguments) := by
    intro i hi
    have hx := isAccepted_of_mem h i hi
    exact rowOf?_of_alignedAt (alignedAt_row hi hx.lineFeed_notMem)
      (hx.isWord _ (List.mem_cons_self ..)) hx.isWellSpelled
  have hsaid : (ofList xs).rows.mapM rowOf? = some (ofList xs).said := mapM_map_eq_some hrow
  rw [ofListing?, hlines, hsaid, said_ofList]
  rfl

end

example : ofListing? "   1: PUSHS  [string] ,\n   2: RETURN \n".toList
    = some (ofList [("PUSHS".toList, [.string [',']]), ("RETURN".toList, [])]) := by
  decide

end Program

/-- **A program that was read is listed on as many lines as it has instructions, in columns, and the
listing says all of it**: programs with the same listing are the same. -/
theorem parse_listing {bs : Bytes} {p : Program} (h : parse bs = .ok p) :
    p.listing = ofLines p.rows ∧ p.rows.length = p.size ∧ (∀ r ∈ p.rows, '\n' ∉ r) ∧
      List.Forall₂ (Program.AlignedAt p.opcodeColumn p.argumentsColumn) p.toList p.rows ∧
      Program.ofListing? p.listing = some p ∧
      ∀ bs' p', parse bs' = .ok p' → p'.listing = p.listing → p' = p := by
  obtain ⟨xs, hxs, rfl⟩ := exists_isAccepted h
  refine ⟨Program.listing_eq _, Program.length_rows _, Program.lineFeed_notMem_rows hxs,
    Program.forall₂_alignedAt hxs, Program.ofListing?_listing hxs, ?_⟩
  intro bs' p' h' hlisting
  obtain ⟨ys, hys, rfl⟩ := exists_isAccepted h'
  have hread := Program.ofListing?_listing hys
  rw [hlisting, Program.ofListing?_listing hxs] at hread
  exact (Option.some.inj hread).symm

/-- A comma in a string is not the comma between two arguments. -/
theorem parse_listing_comma :
    let bs := encode ".IPPcode22\nCONCAT GF@x string@ string@,".toList
    let bs' := encode ".IPPcode22\nCONCAT GF@x string@, string@".toList
    let p := Program.ofList [("CONCAT".toList,
      [.var .globals "x".toList, .string [], .string ",".toList])]
    let p' := Program.ofList [("CONCAT".toList,
      [.var .globals "x".toList, .string ",".toList, .string []])]
    parse bs = .ok p ∧ parse bs' = .ok p' ∧ p'.listing ≠ p.listing := by
  intro bs bs' p p'
  have hp : parse bs = .ok p := by rfl
  have hp' : parse bs' = .ok p' := by rfl
  refine ⟨hp, hp', fun hlisting => ?_⟩
  obtain ⟨-, -, -, -, -, hsame⟩ := parse_listing hp
  exact absurd (hsame bs' p' hp' hlisting) (by decide)

end Ippcode
