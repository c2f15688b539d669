import Ippcode.Proofs.Command.AllOrNothing
import Ippcode.Proofs.Utf8.Lossy

/-!
# What a command line may be

* `IsHelp w`            the words that ask for help: `--help`, but also more dashes in front, and a
                        value behind;
* `Expected ws k b`     words that are all expected: `k` that ask for help, and at the end maybe the
                        one that ends the options; `scan_eq_ok_iff` says that no others pass;
* `IsAdmissible w`      a word with a dash in front is a text;
* `ofArguments_cases`   the command lines that are accepted, and for which command.

Not only an empty command line is one to analyse, and not only `--help` asks for help
(`not_only_help`).
-/

namespace Ippcode

open Text Utf8

namespace Command

/-- the word that ends the options -/
def endOfOptions : Text := ['-', '-']

/-- at least two dashes, `help`, and maybe a value after a `=` -/
def IsHelp (word : Text) : Prop :=
  ∃ dashes rest, word = dashes ++ ("help".toList ++ rest) ∧ 2 ≤ dashes.length ∧
    (∀ c ∈ dashes, c = '-') ∧ ∀ c, rest.head? = some c → c = '='

/-! ## one word -/

section

variable {word u : Text} {s s' : Scan}

theorem isHelp_of_optionName (h : optionName ('-' :: '-' :: u) = "help".toList) :
    IsHelp ('-' :: '-' :: u) := by
  have hword : ('-' :: '-' :: u).takeWhile (· = '-') ++ ('-' :: '-' :: u).dropWhile (· = '-')
      = '-' :: '-' :: u := List.takeWhile_append_dropWhile
  have hname : optionName ('-' :: '-' :: u)
      ++ (('-' :: '-' :: u).dropWhile (· = '-')).dropWhile (· ≠ '=')
      = ('-' :: '-' :: u).dropWhile (· = '-') := List.takeWhile_append_dropWhile
  rw [h] at hname
  refine ⟨_, _, by rw [hname, hword], ?_, ?_, ?_⟩
  · rw [List.takeWhile_cons_of_pos (by decide), List.takeWhile_cons_of_pos (by decide)]
    simp
  · intro c hc
    exact of_decide_eq_true (List.all_eq_true.mp List.all_takeWhile c hc)
  · intro c hc
    have hne := head?_dropWhile hc
    simpa using hne

theorem IsHelp.optionName (h : IsHelp word) : Command.optionName word = "help".toList := by
  obtain ⟨dashes, rest, rfl, -, hdashes, hrest⟩ := h
  have hnames : ∀ c ∈ "help".toList, decide (c ≠ '=') = true := by decide
  have hvalue : ("help".toList ++ rest).takeWhile (· ≠ '=') = "help".toList :=
    takeWhile_append_eq_left hnames fun c hc => by simpa using hrest c hc
  have hdrop : (dashes ++ ("help".toList ++ rest)).dropWhile (· = '-') = "help".toList ++ rest :=
    List.dropWhile_append_of_pos fun c hc => decide_eq_true (hdashes c hc)
  rw [Command.optionName, hdrop, hvalue]

/-- two dashes, and something else than dashes after them -/
theorem IsHelp.exists_eq (h : IsHelp word) : ∃ u, word = '-' :: '-' :: u ∧ u ≠ [] := by
  obtain ⟨dashes, rest, rfl, hlength, hdashes, -⟩ := h
  match dashes, hlength with
  | a :: b :: dashes, _ =>
    rw [hdashes a (by simp), hdashes b (by simp)]
    exact ⟨_, rfl, by simp⟩

theorem not_isHelp_endOfOptions : ¬ IsHelp endOfOptions := by
  intro h
  obtain ⟨u, hu, hne⟩ := h.exists_eq
  exact hne (List.cons.inj (List.cons.inj hu).2).2.symm

theorem scanWord_of_operandsOnly (h : s.operandsOnly = true) (word : Text) :
    scanWord s word = .error (unexpected word) := if_pos h

theorem scanWord_endOfOptions (n : Nat) : scanWord ⟨n, false⟩ endOfOptions = .ok ⟨n, true⟩ := rfl

theorem scanWord_of_isHelp (n : Nat) (h : IsHelp word) :
    scanWord ⟨n, false⟩ word = .ok ⟨n + 1, false⟩ := by
  have hname := h.optionName
  have hne : word ≠ ['-', '-'] := by
    rintro rfl
    exact not_isHelp_endOfOptions h
  obtain ⟨u, rfl, -⟩ := h.exists_eq
  unfold scanWord
  rw [if_neg Bool.false_ne_true, if_neg hne]
  exact if_pos hname

/-- **The words that are expected.** -/
theorem scanWord_eq_ok_iff {n : Nat} : scanWord ⟨n, false⟩ word = .ok s' ↔
    (word = endOfOptions ∧ s' = ⟨n, true⟩) ∨ (IsHelp word ∧ s' = ⟨n + 1, false⟩) := by
  refine ⟨fun h => ?_, ?_⟩
  · unfold scanWord at h
    rw [if_neg Bool.false_ne_true] at h
    split at h
    · next he => exact .inl ⟨he, (Except.ok.inj h).symm⟩
    · split at h
      · split at h
        · next hname => exact .inr ⟨isHelp_of_optionName hname, (Except.ok.inj h).symm⟩
        · cases h
      · cases h
      · cases h
  · intro h
    rcases h with ⟨rfl, rfl⟩ | ⟨hw, rfl⟩
    · exact scanWord_endOfOptions n
    · exact scanWord_of_isHelp n hw

end

/-! ## all words -/

/-- words that are all expected, of which so many ask for help; and whether the options end -/
inductive Expected : List Text → Nat → Bool → Prop where
  | nil : Expected [] 0 false
  | ended : Expected [endOfOptions] 0 true
  | help {w : Text} {words : List Text} {k : Nat} {ended : Bool} : IsHelp w →
      Expected words k ended → Expected (w :: words) (k + 1) ended

section

variable {words : List Text} {s' : Scan}

theorem Expected.eq_of_zero {ended : Bool} (h : Expected words 0 ended) :
    words = [] ∨ words = [endOfOptions] := by
  cases h with
  | nil => exact .inl rfl
  | ended => exact .inr rfl

theorem Expected.isHelp_of_singleton {w : Text} {k : Nat} {ended : Bool}
    (h : Expected [w] k ended) (hk : k ≠ 0) : IsHelp w := by
  cases h with
  | ended => exact absurd rfl hk
  | help hw => exact hw

theorem Scan.ext {s t : Scan} (hh : s.helps = t.helps) (ho : s.operandsOnly = t.operandsOnly) :
    s = t := by
  cases s
  cases t
  exact congrArg₂ Scan.mk hh ho

theorem foldlM_scanWord_cons (s : Scan) (w : Text) (words : List Text) :
    (w :: words).foldlM scanWord s = (scanWord s w).bind fun s' => words.foldlM scanWord s' := by
  rw [List.foldlM_cons]
  rfl

/-- No word is expected behind the end of the options. -/
theorem scan_operandsOnly_eq_ok_iff {n : Nat} :
    words.foldlM scanWord ⟨n, true⟩ = .ok s' ↔ words = [] ∧ s' = ⟨n, true⟩ := by
  cases words with
  | nil => exact ⟨fun h => ⟨rfl, (Except.ok.inj h).symm⟩, fun h => h.2 ▸ rfl⟩
  | cons w words =>
    rw [foldlM_scanWord_cons, scanWord_of_operandsOnly rfl]
    exact iff_of_false (fun h => nomatch h) fun h => nomatch h.1

/-- **Words that are all expected ask for help, one by one, until the options end.** -/
theorem scan_eq_ok_iff {n : Nat} :
    words.foldlM scanWord ⟨n, false⟩ = .ok s' ↔ ∃ k, Expected words k s'.operandsOnly ∧
      s'.helps = n + k := by
  induction words generalizing n with
  | nil =>
    refine ⟨fun h => ?_, ?_⟩
    · obtain rfl := Except.ok.inj h
      exact ⟨0, .nil, rfl⟩
    · intro h
      obtain ⟨helps, ended⟩ := s'
      obtain ⟨k, hk, rfl : helps = n + k⟩ := h
      cases hk
      rfl
  | cons w words ih =>
    rw [foldlM_scanWord_cons]
    refine ⟨fun h => ?_, ?_⟩
    · cases hw : scanWord ⟨n, false⟩ w with
      | error f =>
        rw [hw] at h
        cases h
      | ok s =>
        rw [hw] at h
        rcases scanWord_eq_ok_iff.mp hw with ⟨rfl, rfl⟩ | ⟨hhelp, rfl⟩
        · obtain ⟨rfl, rfl⟩ := scan_operandsOnly_eq_ok_iff.mp h
          exact ⟨0, .ended, rfl⟩
        · obtain ⟨k, hk, hs⟩ := ih.mp h
          exact ⟨k + 1, .help hhelp hk, by omega⟩
    · intro h
      obtain ⟨k, hk, hs⟩ := h
      generalize hended : s'.operandsOnly = ended at hk
      cases hk with
      | ended =>
        rw [scanWord_endOfOptions]
        exact scan_operandsOnly_eq_ok_iff.mpr ⟨rfl, Scan.ext hs hended⟩
      | @help _ _ k _ hhelp hk =>
        rw [scanWord_of_isHelp n hhelp]
        exact ih.mpr ⟨k, hended ▸ hk, by omega⟩

theorem ofWords_of_scan {s : Scan} (h : words.tail.foldlM scanWord ⟨0, false⟩ = .ok s) :
    ofWords words =
      if s.helps > 1 then .error repeatedHelp
      else if s.helps = 0 then .ok .analyze
      else if words.length = 2 then .ok .help
      else .error accompaniedHelp := by
  rw [ofWords, h]

theorem ofWords_of_error {f : Fault} (h : words.tail.foldlM scanWord ⟨0, false⟩ = .error f) :
    ofWords words = .error f := by
  rw [ofWords, h]

theorem ofWords_eq_analyze_iff :
    ofWords words = .ok .analyze ↔ words.tail = [] ∨ words.tail = [endOfOptions] := by
  refine ⟨fun h => ?_, ?_⟩
  · cases hs : words.tail.foldlM scanWord ⟨0, false⟩ with
    | error f =>
      rw [ofWords_of_error hs] at h
      cases h
    | ok s =>
      obtain ⟨k, hk, hhelps⟩ := scan_eq_ok_iff.mp hs
      have hzero : s.helps = 0 := by
        rw [ofWords_of_scan hs] at h
        split at h
        · cases h
        · split at h
          · next hzero => exact hzero
          · split at h <;> cases h
      obtain rfl : k = 0 := by omega
      exact hk.eq_of_zero
  · intro h
    rcases h with h | h <;> simp only [ofWords, h] <;> rfl

theorem ofWords_eq_help_iff :
    ofWords words = .ok .help ↔ ∃ name w, words = [name, w] ∧ IsHelp w := by
  refine ⟨fun h => ?_, ?_⟩
  · cases hs : words.tail.foldlM scanWord ⟨0, false⟩ with
    | error f =>
      rw [ofWords_of_error hs] at h
      cases h
    | ok s =>
      obtain ⟨k, hk, hhelps⟩ := scan_eq_ok_iff.mp hs
      rw [ofWords_of_scan hs] at h
      split at h
      · cases h
      · split at h
        · cases h
        · next hzero =>
          split at h
          · next hlength =>
            obtain ⟨name, w, rfl⟩ := List.length_eq_two.mp hlength
            exact ⟨name, w, rfl, hk.isHelp_of_singleton (by omega)⟩
          · cases h
  · intro h
    obtain ⟨name, w, rfl, hw⟩ := h
    have hscan : [name, w].tail.foldlM scanWord ⟨0, false⟩ = .ok ⟨1, false⟩ :=
      scan_eq_ok_iff.mpr ⟨1, .help hw .nil, rfl⟩
    rw [ofWords_of_scan hscan]
    rfl

end

/-! ## words as bytes -/

/-- a word that is a text, or has no dash in front -/
def IsAdmissible (w : Bytes) : Prop := w.head? = some 0x2D → ∃ t, w = encode t

/-- Only a text is read as a word with a dash in front. -/
theorem IsAdmissible.eq_encode {w : Bytes} (h : IsAdmissible w) {t : Text}
    (hw : decodeLossy w = '-' :: t) : w = encode ('-' :: t) := by
  have hhead : (decodeLossy w).head? = some '-' := by
    rw [hw]
    rfl
  have hdash : w.head? = some 0x2D := by
    rcases head?_decodeLossy hhead with hr | ⟨tail, rfl⟩
    · exact absurd hr (by decide)
    · rfl
  obtain ⟨u, rfl⟩ := h hdash
  rw [← hw, decodeLossy_of_decode? (decode?_encode u)]

theorem decodeLossy_encode (t : Text) : decodeLossy (encode t) = t :=
  decodeLossy_of_decode? (decode?_encode t)

section

variable {arguments : List Bytes}

theorem ofArguments_eq_analyze_iff (h : ∀ w ∈ arguments.tail, IsAdmissible w) :
    ofArguments arguments = .ok .analyze ↔
      arguments.length ≤ 1 ∨ arguments.tail = [encode endOfOptions] := by
  rw [ofArguments, ofWords_eq_analyze_iff, ← List.map_tail, List.map_eq_nil_iff]
  refine or_congr ?_ ⟨fun hw => ?_, fun hw => ?_⟩
  · rw [← List.length_eq_zero_iff, List.length_tail]
    omega
  · obtain ⟨w, htail, hw⟩ := List.map_eq_singleton_iff.mp hw
    rw [htail] at h ⊢
    rw [(h w (List.mem_singleton_self w)).eq_encode hw]
    rfl
  · rw [hw, List.map_singleton, decodeLossy_encode]

theorem ofArguments_eq_help_iff (h : ∀ w ∈ arguments.tail, IsAdmissible w) :
    ofArguments arguments = .ok .help ↔ ∃ name t, arguments = [name, encode t] ∧ IsHelp t := by
  rw [ofArguments, ofWords_eq_help_iff]
  refine ⟨fun hw => ?_, ?_⟩
  · obtain ⟨_, _, hmap, hhelp⟩ := hw
    obtain ⟨name, rest, rfl, -, hrest⟩ := List.map_eq_cons_iff.mp hmap
    obtain ⟨w, rfl, rfl⟩ := List.map_eq_singleton_iff.mp hrest
    obtain ⟨u, hu, -⟩ := hhelp.exists_eq
    refine ⟨name, decodeLossy w, ?_, hhelp⟩
    rw [hu, ← (h w (List.mem_singleton_self w)).eq_encode hu]
  · intro hw
    obtain ⟨name, t, rfl, ht⟩ := hw
    refine ⟨decodeLossy name, t, ?_, ht⟩
    rw [List.map_cons, List.map_singleton, decodeLossy_encode]

/-- **The command lines that are accepted.**  A source is analysed when there is no word behind the
name of the program, or only the one that ends the options; there is help when the only word asks
for it.  Every other command line is rejected.  The name does not matter, nor does it to the
help. -/
theorem ofArguments_cases (h : ∀ w ∈ arguments.tail, IsAdmissible w) :
    (ofArguments arguments = .ok .analyze ↔
      arguments.length ≤ 1 ∨ arguments.tail = [encode endOfOptions]) ∧
    (ofArguments arguments = .ok .help ↔ ∃ name t, arguments = [name, encode t] ∧ IsHelp t) ∧
    (¬ (arguments.length ≤ 1 ∨ arguments.tail = [encode endOfOptions]) →
      ¬ (∃ name t, arguments = [name, encode t] ∧ IsHelp t) →
      ∃ reason, ofArguments arguments = .error (.parameters reason) ∧
        (Fault.parameters reason).exitCode = 10) ∧
    (∀ name name' words, arguments = name :: words →
      ofArguments (name' :: words) = ofArguments arguments) ∧
    (ofArguments arguments = .ok .help → ∀ setting input,
      process setting arguments input Output.good.sink = ⟨0, helpText, []⟩) := by
  refine ⟨ofArguments_eq_analyze_iff h, ofArguments_eq_help_iff h, fun ha hh => ?_, ?_, ?_⟩
  · cases hc : ofArguments arguments with
    | error f =>
      obtain ⟨reason, rfl, -⟩ := exists_reason hc
      exact ⟨reason, rfl, rfl⟩
    | ok c =>
      cases c with
      | analyze => exact absurd ((ofArguments_eq_analyze_iff h).mp hc) ha
      | help => exact absurd ((ofArguments_eq_help_iff h).mp hc) hh
  · intro name name' words hwords
    rw [hwords]
    rfl
  · intro hhelp setting input
    rw [process_of_help hhelp]
    rfl

/-- a lone end of options, and help with dashes to spare and a value -/
theorem ofArguments_cases_near :
    let ended := [encode "parse".toList, encode "--".toList]
    let helped := [[0xFF], encode "---help=1".toList]
    (∀ w ∈ ended.tail, IsAdmissible w) ∧ ofArguments ended = .ok .analyze ∧
      (∀ w ∈ helped.tail, IsAdmissible w) ∧ ofArguments helped = .ok .help := by
  intro ended helped
  have hended : ∀ w ∈ ended.tail, IsAdmissible w :=
    List.forall_mem_singleton.mpr fun _ => ⟨_, rfl⟩
  have hhelped : ∀ w ∈ helped.tail, IsAdmissible w :=
    List.forall_mem_singleton.mpr fun _ => ⟨_, rfl⟩
  refine ⟨hended, (ofArguments_cases hended).1.mpr (.inr rfl), hhelped, ?_⟩
  refine (ofArguments_cases hhelped).2.1.mpr ⟨_, _, rfl, "---".toList, "=1".toList, rfl, ?_, ?_, ?_⟩
  · decide
  · decide
  · intro c hc
    exact (Option.some.inj hc).symm

/-- A command line may have a word that is not `--help` and still be accepted. -/
theorem not_only_help : ¬ ∀ arguments : List Bytes, (∀ w ∈ arguments.tail, IsAdmissible w) →
    (ofArguments arguments = .ok .analyze ↔ arguments.length ≤ 1) ∧
    (ofArguments arguments = .ok .help ↔ ∃ name, arguments = [name, encode "--help".toList]) := by
  intro h
  have hadmissible : ∀ w ∈ [encode "parse".toList, encode "--".toList].tail, IsAdmissible w :=
    List.forall_mem_singleton.mpr fun _ => ⟨_, rfl⟩
  have hanalyze : ofArguments [encode "parse".toList, encode "--".toList] = .ok .analyze := by rfl
  exact absurd ((h _ hadmissible).1.mp hanalyze) (by decide)

end

end Command

end Ippcode
