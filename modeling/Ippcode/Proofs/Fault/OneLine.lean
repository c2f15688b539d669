import Ippcode.Command.Arguments
import Ippcode.Proofs.Analysis.Run
import Ippcode.Proofs.Source.Recasing

/-!
# Faults are told in one line

A message shows words of the command line or of the source, and none of them holds a line feed.

* `Fault.texts f`          the texts that the message of `f` shows;
* `lineFeed_notMem_message`   a message is on one line if these are;
* `Command.exists_reason`  a rejected command line is told by the first line of a reason;
* `oneLine_of_parse`       what a fault of a source shows stands on one line of the source.
-/

namespace Ippcode

open Text Utf8 Source

/-! ## messages -/

namespace Fault

/-- the texts that a message shows -/
def texts : Fault → List Text
  | parameters reason => [reason]
  | unreadable _ reason => [reason]
  | undelivered reason => [reason]
  | wrongHeader _ expected found => [expected, found]
  | missingHeader expected => [expected]
  | unknownOpcode _ token => [token]
  | operandCount _ opcode _ _ => [opcode]
  | operandClass _ opcode _ token expected => [opcode, token, expected]
  | internal reason => [reason]

/-- a fault that shows texts on one line -/
def IsOneLine (f : Fault) : Prop := ∀ t ∈ f.texts, '\n' ∉ t

theorem lineFeed_notMem_decimal (n : Nat) : '\n' ∉ Text.decimal n := by
  intro h
  have hdigit := Nat.isDigit_of_mem_toDigits (by decide) (by decide) h
  exact absurd hdigit (by decide)

theorem lineFeed_notMem_quoted {t : Text} (h : '\n' ∉ t) : '\n' ∉ quoted t :=
  List.not_mem_append (List.not_mem_append (by decide) h) (by decide)

theorem lineFeed_notMem_onLine (n : Nat) : '\n' ∉ onLine n :=
  List.not_mem_append (List.not_mem_append (by decide) (lineFeed_notMem_decimal n)) (by decide)

/-- **A message is on one line if the texts are that it shows.** -/
theorem lineFeed_notMem_message {f : Fault} (h : f.IsOneLine) : '\n' ∉ f.message := by
  unfold IsOneLine at h
  cases f with
  | parameters reason | undelivered reason | internal reason =>
    exact List.not_mem_append (by decide) (h reason (by simp [texts]))
  | unreadable line reason =>
    refine List.not_mem_append (List.not_mem_append (List.not_mem_append ?_ ?_) ?_) ?_
    · decide
    · exact lineFeed_notMem_decimal line
    · decide
    · exact h reason (by simp [texts])
  | wrongHeader line expected found =>
    have hexpected := lineFeed_notMem_quoted (h expected (by simp [texts]))
    have hfound := lineFeed_notMem_quoted (h found (by simp [texts]))
    refine List.not_mem_append (List.not_mem_append (List.not_mem_append ?_ hexpected) ?_) hfound
    · exact List.not_mem_append (lineFeed_notMem_onLine line) (by decide)
    · decide
  | missingHeader expected =>
    exact List.not_mem_append (by decide) (lineFeed_notMem_quoted (h expected (by simp [texts])))
  | unknownOpcode line token =>
    have htoken := lineFeed_notMem_quoted (h token (by simp [texts]))
    exact List.not_mem_append (List.not_mem_append (lineFeed_notMem_onLine line) (by decide)) htoken
  | operandCount line opcode expected found =>
    have hopcode := List.not_mem_append (lineFeed_notMem_onLine line) (h opcode (by simp [texts]))
    refine List.not_mem_append (List.not_mem_append (List.not_mem_append
      (List.not_mem_append hopcode ?_) ?_) ?_) ?_
    · decide
    · exact lineFeed_notMem_decimal expected
    · decide
    · exact lineFeed_notMem_decimal found
  | operandClass line opcode position token expected =>
    have hopcode := List.not_mem_append (lineFeed_notMem_onLine line) (h opcode (by simp [texts]))
    have htoken := lineFeed_notMem_quoted (h token (by simp [texts]))
    refine List.not_mem_append (List.not_mem_append (List.not_mem_append (List.not_mem_append
      (List.not_mem_append (List.not_mem_append hopcode ?_) ?_) ?_) htoken) ?_) ?_
    · decide
    · exact lineFeed_notMem_decimal position
    · decide
    · decide
    · exact h expected (by simp [texts])

end Fault

/-! ## the command line -/

namespace Command

theorem lineFeed_notMem_chomp {t : Text} (h : '\n' ∉ t) : '\n' ∉ chomp (t ++ ['\n']) := by
  by_cases hr : t.getLast? = some '\r'
  · obtain ⟨u, rfl⟩ := List.getLast?_eq_some_iff.mp hr
    rw [List.append_assoc]
    show '\n' ∉ chomp (u ++ ['\r', '\n'])
    rw [chomp_append_crlf]
    exact fun hm => h (List.mem_append_left _ hm)
  · rwa [chomp_append_lf hr]

theorem lineFeed_notMem_firstLine (t : Text) : '\n' ∉ firstLine t := by
  apply lineFeed_notMem_chomp
  intro h
  have hall := List.all_eq_true.mp (List.all_takeWhile (p := (· ≠ '\n')) (l := t)) '\n' h
  simp at hall

theorem exists_unexpected_of_scanWord {s : Scan} {word : Text} {f : Fault}
    (h : scanWord s word = .error f) : ∃ t, f = unexpected t := by
  unfold scanWord at h
  split at h
  · exact ⟨_, (Except.error.inj h).symm⟩
  · split at h
    · cases h
    · split at h
      · split at h
        · cases h
        · exact ⟨_, (Except.error.inj h).symm⟩
      · exact ⟨_, (Except.error.inj h).symm⟩
      · exact ⟨_, (Except.error.inj h).symm⟩

theorem exists_unexpected_of_foldlM {words : List Text} {s : Scan} {f : Fault}
    (h : words.foldlM scanWord s = .error f) : ∃ t, f = unexpected t := by
  induction words generalizing s with
  | nil => cases h
  | cons w words ih =>
    rw [List.foldlM_cons] at h
    cases hw : scanWord s w with
    | error g =>
      rw [hw] at h
      obtain rfl := Except.error.inj h
      exact exists_unexpected_of_scanWord hw
    | ok s' =>
      rw [hw] at h
      exact ih h

/-- **A command line is rejected for one reason, told in one line.** -/
theorem exists_reason {arguments : List Bytes} {f : Fault} (h : ofArguments arguments = .error f) :
    ∃ reason, f = .parameters reason ∧ '\n' ∉ reason := by
  unfold ofArguments ofWords at h
  split at h
  · next hs =>
    obtain ⟨t, ht⟩ := exists_unexpected_of_foldlM hs
    obtain rfl := Except.error.inj h
    exact ⟨_, ht, lineFeed_notMem_firstLine _⟩
  · split at h
    · exact ⟨_, (Except.error.inj h).symm, by decide⟩
    · split at h
      · cases h
      · split at h
        · cases h
        · exact ⟨_, (Except.error.inj h).symm, by decide⟩

end Command

/-! ## the source -/

namespace Source

theorem mem_of_mem_code {t : Text} {c : Char} (h : c ∈ code t) : c ∈ t :=
  (List.takeWhile_prefix _).subset (mem_of_mem_trim h)

/-- The lines of a source end with a line feed, and no line has another one. -/
theorem AreLines.isEnded_or_isUnended {bs : Bytes} {ls : List Bytes} (h : AreLines bs ls) :
    ∀ l ∈ ls, IsEnded l ∨ IsUnended l := by
  induction h with
  | nil => exact List.forall_mem_nil _
  | unended hne hn => exact List.forall_mem_singleton.mpr (.inr ⟨hne, hn⟩)
  | ended hn _ ih => exact List.forall_mem_cons.mpr ⟨.inl ⟨_, hn, rfl⟩, ih⟩

theorem lineFeed_notMem_code {bs : Bytes} {t : Text} (h : encode t ∈ breakLines bs) :
    '\n' ∉ code t := by
  rcases (areLines_breakLines bs).isEnded_or_isUnended _ h with hl | hl
  · obtain ⟨u, hu, rfl⟩ := isEnded_encode_iff.mp hl
    rw [code_append_separators (by decide)]
    exact fun hm => hu (mem_of_mem_code hm)
  · exact fun hm => (isUnended_encode_iff.mp hl).2 (mem_of_mem_code hm)

namespace Statement

/-- the words of a statement are parts of its code -/
theorem lineFeed_notMem_words {n : Nat} {t : Text} {s : Statement} (h : ofLine? n t = some s)
    (ht : '\n' ∉ code t) : ∀ w ∈ s.opcode :: s.operands, '\n' ∉ w := by
  intro w hw hm
  exact ht (((splits_of_ofLine? h).isPiece w hw).2.2 _ hm)

theorem lineFeed_notMem_upper {e : Entry} {token : Text} (he : e ∈ Table.entries)
    (h : e.opcode.sameUpToCase token = true) : '\n' ∉ upper token := by
  rw [← Table.opcode_eq_upper (Table.lookup?_eq_some_iff.mpr ⟨he, h⟩)]
  exact fun hm => Table.clean_opcode e he _ hm (by decide)

theorem Wrong.isOneLine {s : Statement} {f : Fault} {n : Nat} (h : s.Wrong f n)
    (hw : ∀ w ∈ s.opcode :: s.operands, '\n' ∉ w) : f.IsOneLine := by
  rw [List.forall_mem_cons] at hw
  obtain ⟨hopcode, hoperands⟩ := hw
  cases h with
  | opcode => exact List.forall_mem_singleton.mpr hopcode
  | count he hs => exact List.forall_mem_singleton.mpr (lineFeed_notMem_upper he hs)
  | @operand e i c t he hs _ hfirst =>
    have hname : '\n' ∉ c.name := by cases c <;> decide
    have htoken : '\n' ∉ t := hoperands t (List.mem_of_getElem? hfirst.word_eq)
    exact List.forall_mem_cons.mpr ⟨lineFeed_notMem_upper he hs,
      List.forall_mem_cons.mpr ⟨htoken, List.forall_mem_singleton.mpr hname⟩⟩

end Statement

end Source

/-- **The fault of a source is told in one line.** -/
theorem oneLine_of_parse {bs : Bytes} {f : Fault} (h : parse bs = .error f) : f.IsOneLine := by
  have hheader : '\n' ∉ header := by decide
  rcases parse_eq_error_iff.mp h with ⟨-, rfl⟩ | ⟨a, l, b, o, n, hls, -, hl⟩
  · exact List.forall_mem_singleton.mpr hheader
  · have hmem : l ∈ breakLines bs := by
      rw [hls]
      exact List.mem_append_right a (List.mem_cons_self ..)
    cases hl with
    | unreadable => exact List.forall_mem_singleton.mpr (by decide)
    | wrongHeader ht =>
      rw [ht] at hmem
      exact List.forall_mem_cons.mpr
        ⟨hheader, List.forall_mem_singleton.mpr (lineFeed_notMem_code hmem)⟩
    | statement ht _ hs hw =>
      rw [ht] at hmem
      exact hw.isOneLine (Statement.lineFeed_notMem_words hs (lineFeed_notMem_code hmem))

end Ippcode
