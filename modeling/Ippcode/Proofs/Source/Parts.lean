import Ippcode.Proofs.Source.Code

/-!
# The parts of a line

A line has four parts: separators, code, separators again, and a comment.  Any of them may be empty;
a line without code counts all its separators to the first (`Parts`).

* `Parts.indent_eq`, `Parts.code_eq`, `Parts.comment_eq`   each part is found from the line alone;
* `exists_parts`   every line has such parts;
* `code_parts`     it has no others, and the code on it is the one among them; from that, what may be
                   put around the code of a line without changing it.

The code has any number of fields, and a statement has room for an opcode and three operands.
`Statement.ofLine?_capped` says which of the fields a statement shows, and how: one by one up to the
second operand; in the third, what the code has from its fourth field on.

* `ofLine?_of_splits`    words that stand in a text without comment are its statement;
* `ofLine?_joined`       the words of a statement, one space between them, are the same statement.
-/

namespace Ippcode.Source

open Text

/-- a line taken apart -/
@[ext]
structure Parts (line : Text) where
  indent : Text
  code : Text
  padding : Text
  comment : Text
  line_eq : line = indent ++ (code ++ (padding ++ comment))
  indent_blank : ∀ c ∈ indent, isSeparator c = true
  padding_blank : ∀ c ∈ padding, isSeparator c = true
  code_trimmed : IsTrimmed isSeparator code
  code_clean : commentMark ∉ code
  comment_marked : comment = [] ∨ ∃ t, comment = commentMark :: t
  -- otherwise the separators of a blank line could be cut in two anywhere
  padding_nil : code = [] → padding = []

section

variable {line : Text}

/-! ## the parts are found from the line -/

theorem Parts.head?_comment (p : Parts line) {c : Char} (h : p.comment.head? = some c) :
    c = commentMark := by
  rcases p.comment_marked with hn | ⟨t, ht⟩
  · rw [hn] at h
    simp at h
  · rw [ht] at h
    exact (Option.some.inj h).symm

/-- What comes after the first separators starts with none. -/
theorem Parts.head?_afterIndent (p : Parts line) {c : Char}
    (h : (p.code ++ (p.padding ++ p.comment)).head? = some c) : isSeparator c = false := by
  cases hcode : p.code with
  | nil =>
    rw [hcode, p.padding_nil hcode, List.nil_append, List.nil_append] at h
    rw [p.head?_comment h]
    exact isSeparator_commentMark
  | cons d u =>
    apply p.code_trimmed.1 c
    rw [hcode] at h ⊢
    exact h

theorem Parts.indent_eq (p : Parts line) : p.indent = line.takeWhile isSeparator := by
  calc p.indent = (p.indent ++ (p.code ++ (p.padding ++ p.comment))).takeWhile isSeparator :=
        (takeWhile_append_eq_left p.indent_blank fun _ => p.head?_afterIndent).symm
    _ = line.takeWhile isSeparator := by rw [← p.line_eq]

theorem Parts.code_eq (p : Parts line) : p.code = Source.code line := by
  have hcomment : Source.code (p.code ++ (p.padding ++ p.comment))
      = Source.code (p.code ++ p.padding) := by
    rcases p.comment_marked with h | ⟨t, h⟩
    · rw [h, List.append_nil]
    · rw [h, ← List.append_assoc, code_append_comment]
  calc p.code = Source.code p.code := (code_eq_self p.code_trimmed p.code_clean).symm
    _ = Source.code (p.code ++ p.padding) := (code_append_separators p.padding_blank _).symm
    _ = Source.code (p.code ++ (p.padding ++ p.comment)) := hcomment.symm
    _ = Source.code (p.indent ++ (p.code ++ (p.padding ++ p.comment))) :=
        (code_separators_append p.indent_blank _).symm
    _ = Source.code line := by rw [← p.line_eq]

theorem Parts.comment_eq (p : Parts line) : p.comment = line.dropWhile (· ≠ commentMark) := by
  have hfront : commentMark ∉ p.indent ++ (p.code ++ p.padding) := by
    rw [List.mem_append, List.mem_append, not_or, not_or]
    exact ⟨commentMark_notMem_separators p.indent_blank, p.code_clean,
      commentMark_notMem_separators p.padding_blank⟩
  have hmark : ∀ c, p.comment.head? = some c → decide (c ≠ commentMark) = false := by
    intro c hc
    rw [p.head?_comment hc]
    simp
  calc p.comment
      = (p.indent ++ (p.code ++ p.padding) ++ p.comment).dropWhile (· ≠ commentMark) :=
        (dropWhile_append_eq_right (ne_commentMark_of_notMem hfront) hmark).symm
    _ = (p.indent ++ (p.code ++ (p.padding ++ p.comment))).dropWhile (· ≠ commentMark) := by
        rw [List.append_assoc, List.append_assoc]
    _ = line.dropWhile (· ≠ commentMark) := by rw [← p.line_eq]

/-- A line has no two ways of being taken apart. -/
theorem Parts.eq (p q : Parts line) : p = q := by
  have hindent : p.indent = q.indent := p.indent_eq.trans q.indent_eq.symm
  have hcode : p.code = q.code := p.code_eq.trans q.code_eq.symm
  have hcomment : p.comment = q.comment := p.comment_eq.trans q.comment_eq.symm
  have hline := p.line_eq.symm.trans q.line_eq
  rw [hindent, hcode, hcomment, List.append_cancel_left_eq, List.append_cancel_left_eq,
    List.append_cancel_right_eq] at hline
  exact Parts.ext hindent hcode hline hcomment

end

/-! ## every line has parts -/

theorem exists_parts (line : Text) : Nonempty (Parts line) := by
  obtain ⟨a, b, hfront, ha, hb, hnil⟩ :=
    exists_append_trim isSeparator (line.takeWhile (· ≠ commentMark))
  refine ⟨a, code line, b, line.dropWhile (· ≠ commentMark), ?_, ha, hb, isTrimmed_code line,
    commentMark_notMem_code line, ?_, hnil⟩
  · calc line = line.takeWhile (· ≠ commentMark) ++ line.dropWhile (· ≠ commentMark) :=
          List.takeWhile_append_dropWhile.symm
      _ = (a ++ (code line ++ b)) ++ line.dropWhile (· ≠ commentMark) :=
          congrArg (· ++ line.dropWhile (· ≠ commentMark)) hfront
      _ = a ++ (code line ++ (b ++ line.dropWhile (· ≠ commentMark))) := by
          rw [List.append_assoc, List.append_assoc]
  · cases h : line.dropWhile (· ≠ commentMark) with
    | nil => exact .inl rfl
    | cons c t =>
      have hc := head?_dropWhile (p := (· ≠ commentMark)) (t := line) (by rw [h]; rfl)
      rw [Decidable.not_not.mp (of_decide_eq_false hc)]
      exact .inr ⟨t, rfl⟩

/-- **The code on a line is the one part of it that can be its code.**  A line is taken apart in one
way only; and so code is its own code, a comment behind a line does not change its code, and neither
do separators around it. -/
theorem code_parts (line : Text) :
    (∃ p : Parts line, p.code = code line ∧ ∀ q : Parts line, q = p) ∧
    code (code line) = code line ∧
    (∀ t, code (line ++ commentMark :: t) = code line) ∧
    ∀ s e, (∀ c ∈ s, isSeparator c = true) → (∀ c ∈ e, isSeparator c = true) →
      code (s ++ line ++ e) = code line := by
  refine ⟨?_, ?_, code_append_comment line, ?_⟩
  · obtain ⟨p⟩ := exists_parts line
    exact ⟨p, p.code_eq, fun q => q.eq p⟩
  · exact code_eq_self (isTrimmed_code line) (commentMark_notMem_code line)
  · intro s e hs he
    rw [code_append_separators he, code_separators_append hs]

theorem code_parts_commented :
    (∀ c ∈ ['\t', ' '], isSeparator c = true) ∧ (∀ c ∈ ['\r', '\n'], isSeparator c = true) ∧
    code (['\t', ' '] ++ "add  a # b # c".toList ++ ['\r', '\n']) = "add  a".toList := by
  refine ⟨by decide, by decide, ?_⟩
  rw [(code_parts "add  a # b # c".toList).2.2.2 _ _ (by decide) (by decide)]
  decide

/-! ## the words of a statement and the fields of its line -/

namespace Statement

section

variable {n : Nat} {t : Text} {s : Statement}

theorem fields_code_eq_nil_iff : fields (code t) = [] ↔ code t = [] := by
  refine ⟨fun h => ?_, fun h => ?_⟩
  · by_cases hc : code t = []
    · exact hc
    · exact absurd h (fields_ne_nil (isTrimmed_code t) hc)
  · rw [h, fields_nil]

theorem ofLine?_of_splits (h : Splits 3 (s.opcode :: s.operands) t) (hn : commentMark ∉ t) :
    ofLine? s.line t = some s := by
  rw [ofLine?_eq_some_iff, code_eq_self h.isTrimmed hn]
  exact ⟨rfl, h.fieldsUpTo_eq⟩

/-- what a word of a statement looks like -/
theorem isPiece_of_ofLine? (h : ofLine? n t = some s) : ∀ w ∈ s.opcode :: s.operands,
    w ≠ [] ∧ IsTrimmed isSeparator w ∧ commentMark ∉ w := by
  intro w hw
  obtain ⟨hne, ht, hmem⟩ := (splits_of_ofLine? h).isPiece w hw
  exact ⟨hne, ht, fun hc => commentMark_notMem_code t (hmem _ hc)⟩

theorem ofLine?_joined (h : ofLine? n t = some s) :
    ofLine? n (joined [' '] (s.opcode :: s.operands)) = some s := by
  rw [← ofLine?_line h]
  refine ofLine?_of_splits (splits_of_ofLine? h).joined ?_
  intro hm
  rcases mem_joined hm with hm | ⟨w, hw, hm⟩
  · exact absurd hm (by decide)
  · exact (isPiece_of_ofLine? h w hw).2.2 hm

end

/-- **A statement shows the fields of its line.**  A line without fields has none.  The opcode and
the first two operands are fields, and so is the third on a line of four; on a longer line it is
what the code has from the fourth field on, to its end.  No word is empty, has a separator at an
end, or holds a comment mark; and the words say the same again with one space between them. -/
theorem ofLine?_capped (n : Nat) (t : Text) :
    let g := fields (code t)
    (ofLine? n t = none ↔ g = []) ∧
    ∀ s, ofLine? n t = some s →
      s.line = n ∧ some s.opcode = g[0]? ∧ s.operands.length = min (g.length - 1) 3 ∧
      s.operands[0]? = g[1]? ∧ s.operands[1]? = g[2]? ∧
      (g.length = 4 → s.operands[2]? = g[3]?) ∧
      (4 < g.length → ∃ before w tail, code t = before ++ (w ++ tail) ∧
        s.operands[2]? = some (w ++ tail) ∧ g[3]? = some w ∧ fields before = g.take 3 ∧
        ∀ c, before.getLast? = some c → isSeparator c = true) ∧
      (∀ w ∈ s.opcode :: s.operands, w ≠ [] ∧ IsTrimmed isSeparator w ∧ commentMark ∉ w) ∧
      ofLine? n (joined [' '] (s.opcode :: s.operands)) = some s := by
  intro g
  refine ⟨ofLine?_eq_none_iff.trans fields_code_eq_nil_iff.symm, fun s hs => ?_⟩
  have h := splits_of_ofLine? hs
  refine ⟨ofLine?_line hs, h.getElem?_eq (i := 0) (by decide), ?_, h.getElem?_eq (i := 1) (by decide),
    h.getElem?_eq (i := 2) (by decide), ?_, ?_, isPiece_of_ofLine? hs, ofLine?_joined hs⟩
  · have hlength := h.length_eq
    rw [List.length_cons] at hlength
    show s.operands.length = min ((fields (code t)).length - 1) 3
    omega
  · intro hg
    have hall : s.opcode :: s.operands = g := h.eq_fields (Nat.le_of_eq hg)
    rw [← hall]
    rfl
  · intro hg
    exact h.exists_rest (Nat.lt_of_succ_lt hg)

example : ofLine? 1 "add  a b\tc  d # e".toList
    = some ⟨1, "add".toList, ["a".toList, "b".toList, "c  d".toList]⟩ := by decide

end Statement

end Ippcode.Source
