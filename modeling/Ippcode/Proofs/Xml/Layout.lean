import Ippcode.Proofs.Xml.Reader
import Ippcode.Proofs.Xml.References

/-!
# Layouts of elements

* `tag?_opening`, `tag?_empty`, `tag?_closing`   tags are read as they are written, when their
                 names are names and their values hold no special character (`IsPlain`);
* `Lays t es`    fed with `t`, the machine adds the elements `es` to the one it is in, and nothing
                 but blanks to its text;
* `Lays.append`, `lays_blank`, `lays_empty`, `lays_text`, `lays_nested`   how layouts are put
                 together;
* `read?_of_lays`   a declaration and the layout of one element are read as this element.
-/

namespace Ippcode.Xml

/-! ## characters -/

theorem unescape?_of_plain {t : Text} (h : ∀ c ∈ t, isSpecial c = false) :
    unescape? t = some t :=
  unescape?_eq_some_iff.mpr (escape_of_plain h).symm

/-- no bracket of a tag -/
def NoBracket (t : Text) : Prop := ∀ c ∈ t, c ≠ '<' ∧ c ≠ '>'

instance (t : Text) : Decidable (NoBracket t) := Text.decidableForallMem t _

theorem noBracket_append {a b : Text} : NoBracket (a ++ b) ↔ NoBracket a ∧ NoBracket b :=
  List.forall_mem_append

theorem noBracket_cons {c : Char} {t : Text} :
    NoBracket (c :: t) ↔ (c ≠ '<' ∧ c ≠ '>') ∧ NoBracket t := List.forall_mem_cons

theorem noBracket_nil : NoBracket [] := by decide

theorem noBracket_of_plain {t : Text} (h : ∀ c ∈ t, isSpecial c = false) : NoBracket t := by
  intro c hc
  have hs := h c hc
  refine ⟨?_, ?_⟩
  · rintro rfl
    exact absurd hs (by decide)
  · rintro rfl
    exact absurd hs (by decide)

theorem noBracket_escape (t : Text) : NoBracket (escape t) := by
  intro c hc
  refine ⟨?_, ?_⟩
  all_goals
    rintro rfl
    exact notMem_escape (by decide) (by decide) t hc

theorem plain_of_isAlphanum {c : Char} (h : c.isAlphanum = true) : isSpecial c = false := by
  cases hs : isSpecial c with
  | false => rfl
  | true =>
    have hnone : ∀ d ∈ ['&', '<', '>', '"', '\''], d.isAlphanum = false := by decide
    have hc : c ∈ ['&', '<', '>', '"', '\''] := List.contains_iff_mem.mp hs
    rw [hnone c hc] at h
    exact absurd h Bool.false_ne_true

theorem isAlphanum_of_isName {n : Text} (h : isName n = true) :
    ∀ c ∈ n, c.isAlphanum = true := by
  cases n with
  | nil => simp
  | cons a n =>
    rw [isName, Bool.and_eq_true] at h
    intro c hc
    rcases List.mem_cons.mp hc with rfl | hc
    · rw [Char.isAlphanum, h.1, Bool.true_or]
    · exact List.all_eq_true.mp h.2 c hc

theorem plain_of_isName {n : Text} (h : isName n = true) : ∀ c ∈ n, isSpecial c = false :=
  fun c hc => plain_of_isAlphanum (isAlphanum_of_isName h c hc)

theorem quote_notMem_of_plain {t : Text} (h : ∀ c ∈ t, isSpecial c = false) : '"' ∉ t :=
  fun hm => absurd (h _ hm) (by decide)

/-! ## tags -/

/-- attributes that are written as they are -/
structure IsPlain (as : List (Text × Text)) : Prop where
  names : ∀ a ∈ as, isName a.1 = true
  values : ∀ a ∈ as, ∀ c ∈ a.2, isSpecial c = false
  nodup : (as.map Prod.fst).Nodup

theorem IsPlain.tail {a : Text × Text} {as : List (Text × Text)} (h : IsPlain (a :: as)) :
    IsPlain as := by
  refine ⟨?_, ?_, (List.nodup_cons.mp h.nodup).2⟩
  · exact fun b hb => h.names b (List.mem_cons_of_mem _ hb)
  · exact fun b hb => h.values b (List.mem_cons_of_mem _ hb)

theorem splitOn_quote {a : Text} (h : '"' ∉ a) (b : Text) :
    (a ++ '"' :: b).splitOn '"' = a :: b.splitOn '"' := by
  rw [List.splitOn_eq_splitOnP, List.splitOn_eq_splitOnP]
  refine List.splitOnP_append_cons_of_forall_mem ?_ _ (by simp) b
  intro c hc
  rw [beq_eq_false_iff_ne]
  rintro rfl
  exact h hc

theorem splitOn_of_no_quote {a : Text} (h : '"' ∉ a) : a.splitOn '"' = [a] := by
  rw [List.splitOn_eq_splitOnP]
  refine List.splitOnP_eq_singleton ?_
  intro c hc
  rw [beq_eq_false_iff_ne]
  rintro rfl
  exact h hc

theorem attributeName?_eq {n : Text} (h : isName n = true) :
    attributeName? (' ' :: (n ++ ['='])) = some n := by
  rw [attributeName?, List.getLast?_concat, List.dropLast_concat, if_pos ⟨rfl, h⟩]

theorem attributes?_attributes {as : List (Text × Text)} (h : IsPlain as) (tail : Text)
    {slash : Bool} (hq : '"' ∉ tail) (ht : attributes? [tail] = some ([], slash)) :
    attributes? ((attributes as ++ tail).splitOn '"') = some (as, slash) := by
  induction as with
  | nil =>
    rw [attributes_nil, List.nil_append, splitOn_of_no_quote hq]
    exact ht
  | cons a as ih =>
    obtain ⟨n, v⟩ := a
    have hn : isName n = true := h.names _ (List.mem_cons_self ..)
    have hv : ∀ c ∈ v, isSpecial c = false := h.values _ (List.mem_cons_self ..)
    have hsplit : (attributes ((n, v) :: as) ++ tail).splitOn '"'
        = (' ' :: (n ++ ['='])) :: v :: (attributes as ++ tail).splitOn '"' := by
      have happ : attributes ((n, v) :: as) ++ tail
          = (' ' :: (n ++ ['='])) ++ '"' :: (v ++ '"' :: (attributes as ++ tail)) := by
        rw [attributes_cons]
        simp
      have hnq : '"' ∉ (' ' :: (n ++ ['='])) := by
        have := quote_notMem_of_plain (plain_of_isName hn)
        simpa using this
      rw [happ, splitOn_quote hnq, splitOn_quote (quote_notMem_of_plain hv)]
    have hnew : n ∉ as.map Prod.fst := (List.nodup_cons.mp h.nodup).1
    rw [hsplit, attributes?, attributeName?_eq hn, unescape?_of_plain hv, ih h.tail]
    exact if_neg hnew

/-- what follows a name in a tag -/
theorem takeWhile_name {n rest : Text} (h : isName n = true)
    (hr : ∀ c, rest.head? = some c → c.isAlphanum = false) :
    (n ++ rest).takeWhile Char.isAlphanum = n ∧ (n ++ rest).dropWhile Char.isAlphanum = rest := by
  have hn := isAlphanum_of_isName h
  exact ⟨Text.takeWhile_append_eq_left hn hr, Text.dropWhile_append_eq_right hn hr⟩

/-- a tag that begins with a name -/
theorem tag?_of_name {n rest : Text} (h : isName n = true)
    (hr : ∀ c, rest.head? = some c → c.isAlphanum = false) :
    tag? (n ++ rest) = openingTag? n (attributes? (rest.splitOn '"')) := by
  obtain ⟨htake, hdrop⟩ := takeWhile_name h hr
  have hslash : ∀ t, n ++ rest = '/' :: t → False := by
    intro t ht
    cases n with
    | nil => exact absurd h Bool.false_ne_true
    | cons c n =>
      rw [isName, Bool.and_eq_true] at h
      rw [(List.cons.inj ht).1] at h
      exact absurd h.1 (by decide)
  rw [tag?]
  · simp only [htake, hdrop, h, if_true]
  · exact hslash

theorem head?_attributes (as : List (Text × Text)) (tail : Text)
    (ht : ∀ c, tail.head? = some c → c.isAlphanum = false) :
    ∀ c, (attributes as ++ tail).head? = some c → c.isAlphanum = false := by
  intro c hc
  cases as with
  | nil => exact ht c hc
  | cons a as =>
    obtain rfl : ' ' = c := Option.some.inj hc
    decide

section

variable {n : Text} {as : List (Text × Text)}

theorem tag?_opening (hn : isName n = true) (has : IsPlain as) :
    tag? (n ++ attributes as) = some (.opening n as) := by
  have htail : attributes? [[]] = some ([], false) := by rw [attributes?]
  have hread := attributes?_attributes has [] (by simp) htail
  have hhead := head?_attributes as [] (by simp)
  rw [List.append_nil] at hread hhead
  rw [tag?_of_name hn hhead, hread]
  rfl

theorem tag?_empty (hn : isName n = true) (has : IsPlain as) :
    tag? (n ++ attributes as ++ ['/']) = some (.empty n as) := by
  have htail : attributes? [['/']] = some ([], true) := by rw [attributes?]
  have hread := attributes?_attributes has ['/'] (by decide) htail
  have hhead := head?_attributes as ['/'] (by simp)
  rw [List.append_assoc, tag?_of_name hn hhead, hread]
  rfl

theorem tag?_closing (hn : isName n = true) : tag? ('/' :: n) = some (.closing n) := by
  rw [tag?, if_pos hn]

theorem noBracket_attributes (has : IsPlain as) : NoBracket (attributes as) := by
  induction as with
  | nil => exact noBracket_nil
  | cons a as ih =>
    have hn := noBracket_of_plain (plain_of_isName (has.names a (List.mem_cons_self ..)))
    have hv := noBracket_of_plain (has.values a (List.mem_cons_self ..))
    rw [attributes_cons]
    simp only [noBracket_cons, noBracket_append]
    exact ⟨by decide, hn, by decide, by decide, hv, by decide, ih has.tail⟩

end

/-! ## the machine -/

namespace Reader

theorem feed_nil (r : Reader) : r.feed [] = some r := rfl
theorem feed_cons (r : Reader) (c : Char) (t : Text) :
    r.feed (c :: t) = (r.step c).bind fun r' => r'.feed t := rfl
theorem feed_append (r : Reader) (a b : Text) :
    r.feed (a ++ b) = (r.feed a).bind fun r' => r'.feed b := by
  rw [feed, List.foldlM_append]
  rfl

theorem feed_of_noBracket {t : Text} (h : NoBracket t) (r : Reader) :
    r.feed t = some { r with raw := r.raw ++ t } := by
  induction t generalizing r with
  | nil =>
    rw [feed_nil, List.append_nil]
  | cons c t ih =>
    obtain ⟨⟨hlt, hgt⟩, ht⟩ := noBracket_cons.mp h
    rw [feed_cons, step, if_neg hlt, if_neg hgt, Option.bind_some, ih ht, List.append_assoc]
    rfl

/-- what a tag does, once the text before it is unescaped -/
theorem feed_tag {o : Open} {os : List Open} {raw d b : Text} {g : Tag}
    (hraw : unescape? raw = some d) (hb : NoBracket b) (hg : tag? b = some g) :
    feed ⟨o, os, false, raw⟩ ('<' :: (b ++ ['>'])) = act (o.addText d) os g := by
  have hopen : step ⟨o, os, false, raw⟩ '<' = some ⟨o.addText d, os, true, []⟩ := by
    rw [step, if_pos rfl, if_neg Bool.false_ne_true, hraw, Option.map_some]
  have hclose : feed ⟨o.addText d, os, true, b⟩ ['>'] = act (o.addText d) os g := by
    rw [feed_cons, step, if_neg (by decide), if_pos rfl, if_pos rfl, hg, Option.bind_some]
    cases act (o.addText d) os g <;> rfl
  rw [feed_cons, hopen, Option.bind_some, feed_append, feed_of_noBracket hb, Option.bind_some,
    List.nil_append, hclose]

section

variable {o : Open} {os : List Open} {raw d n : Text} {as : List (Text × Text)}

theorem feed_startTag (hraw : unescape? raw = some d) (hn : isName n = true) (has : IsPlain as) :
    feed ⟨o, os, false, raw⟩ (startTag n as)
      = some ⟨⟨n, as, [], []⟩, o.addText d :: os, false, []⟩ := by
  have hb : NoBracket (n ++ attributes as) := by
    rw [noBracket_append]
    exact ⟨noBracket_of_plain (plain_of_isName hn), noBracket_attributes has⟩
  exact feed_tag hraw hb (tag?_opening hn has)

theorem feed_emptyTag (hraw : unescape? raw = some d) (hn : isName n = true) (has : IsPlain as) :
    feed ⟨o, os, false, raw⟩ (emptyTag n as)
      = some ⟨(o.addText d).addChild (.mk n as [] []), os, false, []⟩ := by
  have hb : NoBracket (n ++ attributes as ++ ['/']) := by
    rw [noBracket_append, noBracket_append]
    have hname := noBracket_of_plain (plain_of_isName hn)
    have hslash : NoBracket ['/'] := by decide
    exact ⟨⟨hname, noBracket_attributes has⟩, hslash⟩
  have hshape : emptyTag n as = '<' :: ((n ++ attributes as ++ ['/']) ++ ['>']) := by
    simp [emptyTag]
  rw [hshape]
  exact feed_tag hraw hb (tag?_empty hn has)

theorem feed_endTag {p : Open} {e : Element} (hraw : unescape? raw = some d)
    (hn : isName o.name = true) (he : (o.addText d).close? = some e) :
    feed ⟨o, p :: os, false, raw⟩ (endTag o.name) = some ⟨p.addChild e, os, false, []⟩ := by
  have hb : NoBracket ('/' :: o.name) := by
    rw [noBracket_cons]
    exact ⟨by decide, noBracket_of_plain (plain_of_isName hn)⟩
  have hact : act (o.addText d) (p :: os) (.closing o.name)
      = some ⟨p.addChild e, os, false, []⟩ := by
    show (if o.name = o.name then _ else _) = _
    rw [if_pos rfl, he, Option.map_some]
  rw [← hact]
  exact feed_tag hraw hb (tag?_closing hn)

end

end Reader

/-! ## layouts -/

/-- nothing but blanks -/
def Blanks (t : Text) : Prop := ∀ c ∈ t, isBlank c = true

instance (t : Text) : Decidable (Blanks t) := Text.decidableForallMem t _

theorem blanks_nil : Blanks [] := by decide

theorem blanks_append {a b : Text} : Blanks (a ++ b) ↔ Blanks a ∧ Blanks b :=
  List.forall_mem_append

theorem Blanks.plain {t : Text} (h : Blanks t) : ∀ c ∈ t, isSpecial c = false := by
  have hnone : ∀ c ∈ [' ', '\t', '\n', '\r'], isSpecial c = false := by decide
  exact fun c hc => hnone c (List.contains_iff_mem.mp (h c hc))

theorem Blanks.unescape? {t : Text} (h : Blanks t) : unescape? t = some t :=
  unescape?_of_plain h.plain

/-- the element `o` with more children, and more blanks in its text -/
def Open.Extends (o o' : Open) (es : List Element) : Prop :=
  ∃ d, Blanks d ∧ o' = ⟨o.name, o.attributes, o.children ++ es, o.data ++ d⟩

/-- fed with `t` after blanks, the machine adds `es` to the innermost element, and then there are
blanks again -/
def Lays (t : Text) (es : List Element) : Prop :=
  ∀ o os raw, Blanks raw → ∃ o' raw', o.Extends o' es ∧ Blanks raw' ∧
    Reader.feed ⟨o, os, false, raw⟩ t = some ⟨o', os, false, raw'⟩

theorem lays_blank {t : Text} (h : Blanks t) : Lays t [] := by
  intro o os raw hraw
  refine ⟨o, raw ++ t, ⟨[], blanks_nil, by simp⟩, blanks_append.mpr ⟨hraw, h⟩, ?_⟩
  exact Reader.feed_of_noBracket (noBracket_of_plain h.plain) _

theorem Lays.append {t u : Text} {es fs : List Element} (h : Lays t es) (h' : Lays u fs) :
    Lays (t ++ u) (es ++ fs) := by
  intro o os raw hraw
  obtain ⟨o₁, raw₁, ⟨d₁, hd₁, rfl⟩, hraw₁, hfeed₁⟩ := h o os raw hraw
  obtain ⟨o₂, raw₂, ⟨d₂, hd₂, rfl⟩, hraw₂, hfeed₂⟩ := h' _ os raw₁ hraw₁
  refine ⟨_, raw₂, ⟨d₁ ++ d₂, blanks_append.mpr ⟨hd₁, hd₂⟩, rfl⟩, hraw₂, ?_⟩
  rw [Reader.feed_append, hfeed₁, Option.bind_some, hfeed₂, List.append_assoc, List.append_assoc]

/-- one child, after the blanks before it -/
theorem extends_addChild (o : Open) {raw : Text} (h : Blanks raw) (e : Element) :
    o.Extends ((o.addText raw).addChild e) [e] := ⟨raw, h, rfl⟩

section

variable {n t : Text} {as : List (Text × Text)}

theorem lays_empty (hn : isName n = true) (has : IsPlain as) :
    Lays (emptyTag n as) [.mk n as [] []] := by
  intro o os raw hraw
  exact ⟨_, [], extends_addChild o hraw _, blanks_nil,
    Reader.feed_emptyTag hraw.unescape? hn has⟩

theorem lays_text (hn : isName n = true) (has : IsPlain as) :
    Lays (startTag n as ++ escape t ++ endTag n) [.mk n as [] t] := by
  intro o os raw hraw
  refine ⟨_, [], extends_addChild o hraw _, blanks_nil, ?_⟩
  rw [Reader.feed_append, Reader.feed_append, Reader.feed_startTag hraw.unescape? hn has,
    Option.bind_some, Reader.feed_of_noBracket (noBracket_escape t), Option.bind_some]
  exact Reader.feed_endTag (o := ⟨n, as, [], []⟩) (unescape?_escape t) hn rfl

theorem lays_nested {es : List Element} (hn : isName n = true) (has : IsPlain as)
    (hes : es ≠ []) (h : Lays t es) :
    Lays (startTag n as ++ t ++ endTag n) [.mk n as es []] := by
  intro o os raw hraw
  refine ⟨_, [], extends_addChild o hraw _, blanks_nil, ?_⟩
  obtain ⟨o', raw', ⟨d, hd, rfl⟩, hraw', hfeed⟩ :=
    h ⟨n, as, [], []⟩ (o.addText raw :: os) [] blanks_nil
  rw [Reader.feed_append, Reader.feed_append, Reader.feed_startTag hraw.unescape? hn has,
    Option.bind_some, hfeed, Option.bind_some]
  refine Reader.feed_endTag (o := ⟨n, as, [] ++ es, [] ++ d⟩) hraw'.unescape? hn ?_
  have hall : (([] ++ d) ++ raw').all isBlank = true :=
    List.all_eq_true.mpr (blanks_append.mpr ⟨hd, hraw'⟩)
  rw [Open.close?, if_neg (by simpa [Open.addText] using hes)]
  exact if_pos hall

end

/-- **A declaration and the layout of one element are read as this element.** -/
theorem read?_of_lays {t : Text} {e : Element} (h : Lays t [e]) :
    read? (prolog ++ t) = some e := by
  obtain ⟨o, raw, ⟨d, hd, rfl⟩, hraw, hfeed⟩ := h Reader.start.top [] [] blanks_nil
  have hroot : root? ⟨⟨[], [], [e], d⟩, [], false, raw⟩ = some e := by
    have hall : d.all isBlank = true := List.all_eq_true.mpr hd
    rw [root?, if_pos ⟨rfl, rfl, List.all_eq_true.mpr hraw⟩]
    simp only [Open.close?, List.isEmpty_cons, Bool.false_eq_true, if_false, hall, if_true]
  rw [read?, if_pos (List.isPrefixOf_iff_prefix.mpr (List.prefix_append _ _)),
    List.drop_left]
  show (Reader.feed ⟨Reader.start.top, [], false, []⟩ t).bind root? = some e
  rw [hfeed]
  exact hroot

end Ippcode.Xml
