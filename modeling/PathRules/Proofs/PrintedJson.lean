import Mathlib.Data.List.TakeWhile
import PathRules.Format
import PathRules.Proofs.Leaves
import PathRules.Rendering

/-!
# Printed JSON is read back

A printed text is read from left to right, and the reader tells the grammar of a value when the
value's last character has passed: brackets and quotes close by themselves, and a word is closed by
whatever follows it. So each printer is met by one statement: at a point where the grammar wants a
value, the text of a value takes the reader to the state in which the value has been delivered. It
is proved for the scalars, and carried over brackets, commas and colons from the parts of a
container to the container. Blanks between the parts change nothing, so one argument serves the text
on one line and the one over indented lines.
-/

namespace PathRules

namespace Numeral

/-- The numeral of zero is the only one that starts with a zero. -/
theorem natDigits_cases (n : Nat) :
    n = 0 ∧ natDigits n = ['0'] ∨
      n ≠ 0 ∧ ∃ d ds, natDigits n = d :: ds ∧ d ≠ '0' ∧ d.isDigit ∧ ds.all Char.isDigit := by
  induction n using Nat.strongRecOn with
  | ind n ih =>
      by_cases hsmall : n < 10
      · have hdigit : ∀ m < 10, m = 0 ∧ Nat.digitChar m = '0' ∨
            m ≠ 0 ∧ Nat.digitChar m ≠ '0' ∧ (Nat.digitChar m).isDigit := by decide
        rw [natDigits, Nat.toDigits_of_lt_base hsmall]
        rcases hdigit n hsmall with ⟨hzero, hchar⟩ | ⟨hne, hchar, hisDigit⟩
        · exact Or.inl ⟨hzero, by rw [hchar]⟩
        · exact Or.inr ⟨hne, _, [], rfl, hchar, hisDigit, rfl⟩
      · obtain ⟨hzero, -⟩ | ⟨-, d, ds, hdigits, hd, hisDigit, hall⟩ := ih (n / 10) (by omega)
        · omega
        · refine Or.inr ⟨by omega, d, ds ++ [(n % 10).digitChar], ?_, hd, hisDigit, ?_⟩
          · rw [natDigits] at hdigits
            rw [natDigits, Nat.toDigits_of_base_le (by decide) (by omega), hdigits,
              List.cons_append]
          · have hlast : ∀ m < 10, (Nat.digitChar m).isDigit := by decide
            simp [hall, hlast (n % 10) (by omega)]

end Numeral

theorem Entries.insert_of_not_mem {α : Type} {es : Entries α} {key : String} {x : α}
    (h : key ∉ es.keys) : es.insert key x = es ++ [(key, x)] := by
  induction es with
  | nil => rfl
  | cons e es ih =>
      obtain ⟨hne, hrest⟩ := not_or.mp (mt List.mem_cons.mpr h)
      rw [insert, if_neg (Ne.symm hne), ih hrest, List.cons_append]

namespace Json

section Numbers

theorem isWholePart_natDigits (n : Nat) : isWholePart (Numeral.natDigits n) := by
  rcases Numeral.natDigits_cases n with ⟨-, h⟩ | ⟨-, d, ds, h, hd, hisDigit, hall⟩
  · rw [h]
    rfl
  · rw [h, isWholePart]
    · simp [hd, hisDigit, hall]
    · rintro heq
      cases heq
      exact absurd rfl hd

theorem splitDigits_natDigits (n : Nat) :
    splitDigits (Numeral.natDigits n) = some (Numeral.natDigits n, []) := by
  have hall : ∀ c ∈ Numeral.natDigits n, c.isDigit := fun _ => Numeral.isDigit_of_mem_natDigits
  rw [splitDigits, List.takeWhile_eq_self_iff.mpr hall, List.dropWhile_eq_nil_iff.mpr hall]
  split
  · exact absurd (by assumption) (Nat.toDigits_ne_nil (n := n) (b := 10))
  · rfl

theorem ne_minus_natDigits (n : Nat) (cs : List Char) : Numeral.natDigits n ≠ '-' :: cs := by
  intro h
  have hminus := Numeral.isDigit_of_mem_natDigits (n := n) (c := '-') (by simp [h])
  exact absurd hminus (by decide)

theorem splitNumber?_intDigits (i : Int) : splitNumber? (Numeral.intDigits i) =
    some ⟨decide (i < 0), Numeral.natDigits i.natAbs, none, none⟩ := by
  cases i with
  | negSucc n =>
      have hdigits := splitDigits_natDigits (n + 1)
      have hwhole := isWholePart_natDigits (n + 1)
      simp [Numeral.intDigits, splitNumber?, hdigits, hwhole, readTail?, Int.negSucc_lt_zero]
  | ofNat n =>
      have hdigits := splitDigits_natDigits n
      have hwhole := isWholePart_natDigits n
      rw [Numeral.intDigits, splitNumber?]
      · simp [hdigits, hwhole, readTail?]
      · exact ne_minus_natDigits n

theorem readNumber?_intDigits (i : Int64) :
    readNumber? (Numeral.intDigits i.toInt) = some (.int i) := by
  have hvalue : Nat.ofDigitChars 10 (Numeral.natDigits i.toInt.natAbs) 0 = i.toInt.natAbs :=
    Nat.ofDigitChars_toDigits (by decide) (by decide)
  have hparts : NumberParts.toInt?
      ⟨decide (i.toInt < 0), Numeral.natDigits i.toInt.natAbs, none, none⟩ = some i := by
    simp only [NumberParts.toInt?, hvalue, decide_eq_true_eq]
    by_cases hneg : i.toInt < 0
    · have habs : -(i.toInt.natAbs : Int) = i.toInt := by omega
      rw [if_pos hneg, if_neg (by omega), habs, Numeral.toInt64?_toInt]
    · have habs : (i.toInt.natAbs : Int) = i.toInt := by omega
      rw [if_neg hneg, habs, Numeral.toInt64?_toInt]
  simp [readNumber?, splitNumber?_intDigits, hparts]

end Numbers

namespace Reader

variable {r : Reader} {g g' g'' : Grammar} {c : Char} {cs ds : List Char}

/-- The reader after more characters. -/
def feed (r : Reader) (cs : List Char) : Option Reader :=
  cs.foldlM step r

@[simp] theorem feed_nil (r : Reader) : r.feed [] = some r := rfl

@[simp] theorem feed_cons (r : Reader) (c : Char) (cs : List Char) :
    r.feed (c :: cs) = (r.step c).bind (feed · cs) := rfl

theorem feed_append (r : Reader) (cs ds : List Char) :
    r.feed (cs ++ ds) = (r.feed cs).bind (feed · ds) :=
  List.foldlM_append

/-- Whether the grammar is in a state once a character has followed that is no part of a word. -/
inductive Settled : Reader → Grammar → Prop
  | gap (g : Grammar) : Settled ⟨.gap, g⟩ g
  | word {g g' : Grammar} {taken : List Char} (h : endWord g taken = some g') :
      Settled ⟨.word taken, g⟩ g'

theorem Settled.step_eq (h : r.Settled g) (hc : isWordChar c = false) :
    r.step c = stepGap g c := by
  cases h with
  | gap => rfl
  | word h => simp [step, hc, h]

theorem Settled.finish_eq (h : r.Settled g) : r.finish = result? g := by
  cases h with
  | gap => rfl
  | word h => simp [finish, h]

/-- A text, read where no word or string is open, takes the grammar from one state to another. -/
def Takes (g : Grammar) (cs : List Char) (g' : Grammar) : Prop :=
  ∃ r, feed ⟨.gap, g⟩ cs = some r ∧ r.Settled g'

theorem takes_of_feed (h : feed ⟨.gap, g⟩ cs = some ⟨.gap, g'⟩) : Takes g cs g' :=
  ⟨_, h, .gap g'⟩

theorem takes_append_of_feed (h : feed ⟨.gap, g⟩ cs = some ⟨.gap, g'⟩) (h' : Takes g' ds g'') :
    Takes g (cs ++ ds) g'' := by
  obtain ⟨r, hr, hsettled⟩ := h'
  exact ⟨r, by rw [feed_append, h]; exact hr, hsettled⟩

theorem takes_cons (h : stepGap g c = some ⟨.gap, g'⟩) (h' : Takes g' ds g'') :
    Takes g (c :: ds) g'' := by
  have hfeed : feed ⟨.gap, g⟩ [c] = some ⟨.gap, g'⟩ := by simp [step, h]
  exact takes_append_of_feed hfeed h'

/-- Whether a word that came before a text has ended where the text starts. -/
def EndsWord (ds : List Char) : Prop :=
  ∀ d ∈ ds.head?, isWordChar d = false

theorem Takes.append (h : Takes g cs g') (hds : EndsWord ds) (h' : Takes g' ds g'') :
    Takes g (cs ++ ds) g'' := by
  obtain ⟨r, hr, hsettled⟩ := h
  obtain ⟨r', hr', hsettled'⟩ := h'
  cases ds with
  | nil =>
      cases hr'
      cases hsettled'
      exact ⟨r, by rwa [List.append_nil], hsettled⟩
  | cons d ds =>
      refine ⟨r', ?_, hsettled'⟩
      rw [feed_append, hr, Option.bind_some, feed_cons, hsettled.step_eq (hds d rfl)]
      exact hr'

theorem isWordChar_of_isSpace (h : isSpace c) : isWordChar c = false := by
  simp only [isSpace, Bool.or_eq_true, beq_iff_eq] at h
  rcases h with ((rfl | rfl) | rfl) | rfl <;> decide

theorem feed_blanks (hcs : ∀ c ∈ cs, isSpace c) (g : Grammar) :
    feed ⟨.gap, g⟩ cs = some ⟨.gap, g⟩ := by
  induction cs with
  | nil => rfl
  | cons c cs ih =>
      obtain ⟨hc, hcs⟩ := List.forall_mem_cons.mp hcs
      simp [step, stepGap, hc, ih hcs]

theorem endsWord_nil : EndsWord [] := by
  simp [EndsWord]

theorem endsWord_append (hcs : ∀ c ∈ cs, isSpace c) (hds : EndsWord ds) : EndsWord (cs ++ ds) := by
  cases cs with
  | nil => exact hds
  | cons c cs =>
      rintro d hd
      cases hd
      exact isWordChar_of_isSpace (hcs c List.mem_cons_self)

section Strings

variable (g) (taken : List Char)

theorem hexValue?_hexDigit (n : Nat) : hexValue? (hexDigit n) = some (n % 16) := by
  have hall : ∀ m < 16, hexValue? (Nat.digitChar m) = some m := by decide
  exact hall (n % 16) (Nat.mod_lt _ (by decide))

theorem feed_unicodeEscape (h : c.toNat < 0x20) : feed ⟨.text taken, g⟩
    ['\\', 'u', '0', '0', hexDigit (c.toNat / 16), hexDigit c.toNat] =
      some ⟨.text (c :: taken), g⟩ := by
  have hzero : hexValue? '0' = some 0 := by decide
  have hvalue : c.toNat / 16 % 16 * 16 + c.toNat % 16 = c.toNat := by omega
  have hhigh : ¬ (0xD800 ≤ c.toNat ∧ c.toNat < 0xDC00) := by omega
  have hlow : ¬ (0xDC00 ≤ c.toNat ∧ c.toNat < 0xE000) := by omega
  simp [step, hzero, hexValue?_hexDigit, hvalue, endUnicode, hhigh, hlow]

theorem feed_escapeChar (c : Char) :
    feed ⟨.text taken, g⟩ (escapeChar c) = some ⟨.text (c :: taken), g⟩ := by
  unfold escapeChar
  split_ifs with hquote hbackslash hfeed hreturn htab hback hform hcontrol
  · subst hquote; rfl
  · subst hbackslash; rfl
  · subst hfeed; rfl
  · subst hreturn; rfl
  · subst htab; rfl
  · subst hback; rfl
  · subst hform; rfl
  · exact feed_unicodeEscape g taken hcontrol
  · simp [step, hquote, hbackslash, hcontrol]

theorem feed_escaped (cs : List Char) : feed ⟨.text taken, g⟩ (cs.flatMap escapeChar) =
    some ⟨.text (cs.reverse ++ taken), g⟩ := by
  induction cs generalizing taken with
  | nil => rfl
  | cons c cs ih => simp [feed_append, feed_escapeChar, ih]

theorem feed_quote (s : String) :
    feed ⟨.gap, g⟩ (quote s) = push g (.scalar (.text s)) := by
  have hopen : stepGap g '"' = some ⟨.text [], g⟩ := rfl
  simp [quote, feed_append, step, hopen, feed_escaped]

end Strings

section Words

theorem feed_word (taken : List Char) (hcs : ∀ c ∈ cs, isWordChar c) (g : Grammar) :
    feed ⟨.word taken, g⟩ cs = some ⟨.word (cs.reverse ++ taken), g⟩ := by
  induction cs generalizing taken with
  | nil => rfl
  | cons c cs ih =>
      obtain ⟨hc, hcs⟩ := List.forall_mem_cons.mp hcs
      simp [step, hc, ih _ hcs]

theorem takes_word {s : Scalar} (hne : cs ≠ []) (hcs : cs.all isWordChar)
    (hread : readWord? cs = some s) (hpush : g.push (.scalar s) = some g') : Takes g cs g' := by
  obtain ⟨c, ds, rfl⟩ := List.exists_cons_of_ne_nil hne
  obtain ⟨hc, hds⟩ := List.forall_mem_cons.mp (List.all_eq_true.mp hcs)
  have hspace : isSpace c = false := by
    rw [Bool.eq_false_iff]
    intro hspace
    rw [isWordChar_of_isSpace hspace] at hc
    cases hc
  have hquote : c ≠ '"' := by
    rintro rfl
    exact absurd hc (by decide)
  refine ⟨⟨.word (c :: ds).reverse, g⟩, ?_, .word ?_⟩
  · simp [step, stepGap, hspace, hquote, hc, feed_word _ hds]
  · simp [endWord, hread, hpush]

theorem all_isWordChar_intDigits (i : Int) : (Numeral.intDigits i).all isWordChar := by
  refine List.all_eq_true.mpr fun c hc => ?_
  rcases Numeral.isDigit_of_mem_intDigits hc with rfl | hdigit
  · decide
  · simp [isWordChar, Char.isAlphanum, hdigit]

theorem readWord?_intDigits (i : Int64) :
    readWord? (Numeral.intDigits i.toInt) = some (.int i) := by
  have hne : ∀ c cs, c ≠ '-' → c.isDigit = false → Numeral.intDigits i.toInt ≠ c :: cs := by
    intro c cs hminus hdigit h
    have hc : c ∈ Numeral.intDigits i.toInt := by simp [h]
    rcases Numeral.isDigit_of_mem_intDigits hc with rfl | hc
    · exact hminus rfl
    · rw [hc] at hdigit
      cases hdigit
  rw [readWord?, if_neg (hne _ _ (by decide) (by decide)), if_neg (hne _ _ (by decide) (by decide)),
    if_neg (hne _ _ (by decide) (by decide)), readNumber?_intDigits]

end Words

end Reader

namespace Grammar

def WantsValue (g : Grammar) : Prop :=
  g.want = .value ∨ g.want = .firstItem

variable {g : Grammar} {frames : List Frame} {want : Want}

theorem push_scalar (hg : g.WantsValue) (s : Scalar) :
    g.push (.scalar s) = deliver g.frames (.scalar s) := by
  rcases hg with h | h <;> simp [push, h, takeValue]

theorem push_openSeq (hg : g.WantsValue) (hdepth : g.frames.length + 1 < depthBound) :
    g.push .openSeq = some ⟨.seq [] :: g.frames, .firstItem⟩ := by
  rcases hg with h | h <;> simp [push, h, takeValue, openFrame, hdepth]

theorem push_openMap (hg : g.WantsValue) (hdepth : g.frames.length + 1 < depthBound) :
    g.push .openMap = some ⟨.map [] :: g.frames, .firstKey⟩ := by
  rcases hg with h | h <;> simp [push, h, takeValue, openFrame, hdepth]

theorem push_closeSeq (items : List Value) (hwant : want = .firstItem ∨ want = .next) :
    push ⟨.seq items :: frames, want⟩ .closeSeq = deliver frames (.seq items.reverse) := by
  rcases hwant with rfl | rfl <;> rfl

theorem push_closeMap (es : Entries Value) (hwant : want = .firstKey ∨ want = .next) :
    push ⟨.map es :: frames, want⟩ .closeMap = deliver frames (.map es) := by
  rcases hwant with rfl | rfl <;> rfl

theorem push_key (es : Entries Value) (k : String) (hwant : want = .firstKey ∨ want = .key) :
    push ⟨.map es :: frames, want⟩ (.scalar (.text k)) =
      some ⟨.map es :: frames, .colon k⟩ := by
  rcases hwant with rfl | rfl <;> rfl

end Grammar

/-- Where the grammar wants a value, the text delivers this one. -/
def Conveys (v : Value) (cs : List Char) : Prop :=
  ∀ g g' : Grammar, g.WantsValue → g.frames.length + v.height < Grammar.depthBound →
    Grammar.deliver g.frames v = some g' → Reader.Takes g cs g'

/-- A text made of a key and, after a colon and a gap, of a text that delivers a value. -/
def ConveysEntry (gap : List Char) (e : String × Value) (cs : List Char) : Prop :=
  ∃ ds, cs = quote e.1 ++ ':' :: (gap ++ ds) ∧ Conveys e.2 ds

section Containers

open Reader

variable {pad pad' gap : List Char} {frames : List Frame} {want : Want}

theorem conveys_scalar {s : Scalar} (hs : ∀ x, s ≠ .float x) :
    Conveys (.scalar s) (scalarText s) := by
  intro g g' hg _ hdeliver
  have hpush : g.push (.scalar s) = some g' := (Grammar.push_scalar hg s).trans hdeliver
  cases s with
  | null => exact takes_word (by decide) (by decide) rfl hpush
  | bool b => cases b <;> exact takes_word (by decide) (by decide) rfl hpush
  | int i =>
      exact takes_word (Numeral.intDigits_ne_nil _) (all_isWordChar_intDigits _)
        (readWord?_intDigits i) hpush
  | float x => exact absurd rfl (hs x)
  | text t => exact takes_of_feed (by rw [scalarText, feed_quote, push, hpush, Option.map_some])

theorem takes_items (before : List Value) {items : List Value} {parts : List (List Char)}
    (h : List.Forall₂ Conveys items parts) (hne : items ≠ []) (hpad : ∀ c ∈ pad, isSpace c)
    (hwant : want = .value ∨ want = .firstItem)
    (hdepth : frames.length + 1 + Value.heightItems items < Grammar.depthBound) :
    Takes ⟨.seq before :: frames, want⟩ (joinWith (',' :: pad) parts)
      ⟨.seq (items.reverse ++ before) :: frames, .next⟩ := by
  induction h generalizing before want with
  | nil => exact absurd rfl hne
  | @cons x part items parts hx h ih =>
      have hfirst : Takes ⟨.seq before :: frames, want⟩ part
          ⟨.seq (x :: before) :: frames, .next⟩ :=
        hx _ _ hwant (by simp only [Value.heightItems, List.length_cons] at hdepth ⊢; omega) rfl
      cases h with
      | nil => exact hfirst
      | @cons y part' items parts hy h =>
          have hrest := ih (x :: before) (by simp) (Or.inl rfl)
            (by simp only [Value.heightItems] at hdepth ⊢; omega)
          rw [List.reverse_cons, List.append_assoc, List.singleton_append, joinWith,
            List.append_assoc]
          · refine hfirst.append (fun d hd => by cases hd; decide) ?_
            exact takes_cons rfl (takes_append_of_feed (feed_blanks hpad _) hrest)
          · simp

theorem conveys_seq {items : List Value} {parts : List (List Char)}
    (h : List.Forall₂ Conveys items parts) (hpad : ∀ c ∈ pad, isSpace c)
    (hpad' : ∀ c ∈ pad', isSpace c) : Conveys (.seq items)
      ('[' :: (pad ++ (joinWith (',' :: pad) parts ++ (pad' ++ [']'])))) := by
  intro g g' hg hdepth hdeliver
  rw [Value.height] at hdepth
  have hopen : stepGap g '[' = some ⟨.gap, ⟨.seq [] :: g.frames, .firstItem⟩⟩ := by
    change push g .openSeq = _
    rw [push, Grammar.push_openSeq hg (by omega), Option.map_some]
  have hclose : ∀ want, want = .firstItem ∨ want = .next →
      Takes ⟨.seq items.reverse :: g.frames, want⟩ (pad' ++ [']']) g' := by
    intro want hwant
    refine takes_append_of_feed (feed_blanks hpad' _) (takes_cons ?_ (takes_of_feed rfl))
    change push _ .closeSeq = _
    rw [push, Grammar.push_closeSeq _ hwant, List.reverse_reverse, hdeliver, Option.map_some]
  refine takes_cons hopen (takes_append_of_feed (feed_blanks hpad _) ?_)
  cases h with
  | nil => exact hclose .firstItem (Or.inl rfl)
  | cons hx h =>
      have hitems := takes_items [] (.cons hx h) (by simp) hpad (Or.inr rfl)
        (by omega : g.frames.length + 1 + _ < _)
      rw [List.append_nil] at hitems
      exact hitems.append (endsWord_append hpad' fun d hd => by cases hd; decide)
        (hclose .next (Or.inr rfl))

theorem takes_entry {e : String × Value} {before : Entries Value} {part : List Char}
    (h : ConveysEntry gap e part) (hgap : ∀ c ∈ gap, isSpace c) (hnew : e.1 ∉ before.keys)
    (hwant : want = .firstKey ∨ want = .key)
    (hdepth : frames.length + 1 + e.2.height < Grammar.depthBound) :
    Takes ⟨.map before :: frames, want⟩ part ⟨.map (before ++ [e]) :: frames, .next⟩ := by
  obtain ⟨ds, rfl, hds⟩ := h
  have hkey : feed ⟨.gap, ⟨.map before :: frames, want⟩⟩ (quote e.1) =
      some ⟨.gap, ⟨.map before :: frames, .colon e.1⟩⟩ := by
    rw [feed_quote, push, Grammar.push_key _ _ hwant, Option.map_some]
  have hvalue : Takes ⟨.entry before e.1 :: frames, .value⟩ ds
      ⟨.map (before ++ [e]) :: frames, .next⟩ := by
    refine hds _ _ (Or.inl rfl) hdepth ?_
    rw [Grammar.deliver, Entries.insert_of_not_mem hnew]
  exact takes_append_of_feed hkey
    (takes_cons rfl (takes_append_of_feed (feed_blanks hgap _) hvalue))

theorem takes_entries (before : Entries Value) {es : Entries Value} {parts : List (List Char)}
    (h : List.Forall₂ (ConveysEntry gap) es parts) (hne : es ≠ [])
    (hpad : ∀ c ∈ pad, isSpace c) (hgap : ∀ c ∈ gap, isSpace c)
    (hkeys : (before ++ es).keys.Nodup) (hwant : want = .firstKey ∨ want = .key)
    (hdepth : frames.length + 1 + Value.heightEntries es < Grammar.depthBound) :
    Takes ⟨.map before :: frames, want⟩ (joinWith (',' :: pad) parts)
      ⟨.map (before ++ es) :: frames, .next⟩ := by
  induction h generalizing before want with
  | nil => exact absurd rfl hne
  | @cons e part es parts he h ih =>
      have hnew : e.1 ∉ before.keys := by
        rw [Entries.keys, List.map_append, List.map_cons] at hkeys
        exact fun hmem => List.disjoint_of_nodup_append hkeys hmem List.mem_cons_self
      have hfirst : Takes ⟨.map before :: frames, want⟩ part
          ⟨.map (before ++ [e]) :: frames, .next⟩ :=
        takes_entry he hgap hnew hwant (by simp only [Value.heightEntries] at hdepth; omega)
      cases h with
      | nil => exact hfirst
      | @cons e' part' es parts he' h =>
          have hrest := ih (before ++ [e]) (by simp) (by simpa using hkeys) (Or.inr rfl)
            (by simp only [Value.heightEntries] at hdepth ⊢; omega)
          rw [List.append_assoc, List.singleton_append] at hrest
          rw [joinWith, List.append_assoc]
          · refine hfirst.append (fun d hd => by cases hd; decide) ?_
            exact takes_cons rfl (takes_append_of_feed (feed_blanks hpad _) hrest)
          · simp

theorem conveys_map {es : Entries Value} {parts : List (List Char)}
    (h : List.Forall₂ (ConveysEntry gap) es parts) (hes : es.keys.Nodup)
    (hpad : ∀ c ∈ pad, isSpace c) (hpad' : ∀ c ∈ pad', isSpace c) (hgap : ∀ c ∈ gap, isSpace c) :
    Conveys (.map es)
      ('\x7b' :: (pad ++ (joinWith (',' :: pad) parts ++ (pad' ++ ['\x7d'])))) := by
  intro g g' hg hdepth hdeliver
  rw [Value.height] at hdepth
  have hopen : stepGap g '\x7b' = some ⟨.gap, ⟨.map [] :: g.frames, .firstKey⟩⟩ := by
    change push g .openMap = _
    rw [push, Grammar.push_openMap hg (by omega), Option.map_some]
  have hclose : ∀ want, want = .firstKey ∨ want = .next →
      Takes ⟨.map es :: g.frames, want⟩ (pad' ++ ['\x7d']) g' := by
    intro want hwant
    refine takes_append_of_feed (feed_blanks hpad' _) (takes_cons ?_ (takes_of_feed rfl))
    change push _ .closeMap = _
    rw [push, Grammar.push_closeMap _ hwant, hdeliver, Option.map_some]
  refine takes_cons hopen (takes_append_of_feed (feed_blanks hpad _) ?_)
  cases h with
  | nil => exact hclose .firstKey (Or.inl rfl)
  | cons he h =>
      have hentries := takes_entries [] (.cons he h) (by simp) hpad hgap hes (Or.inl rfl)
        (by omega : g.frames.length + 1 + _ < _)
      exact hentries.append (endsWord_append hpad' fun d hd => by cases hd; decide)
        (hclose .next (Or.inr rfl))

end Containers

theorem compactItems_eq_map (items : List Value) : compactItems items = items.map compact := by
  induction items with
  | nil => rfl
  | cons x items ih => rw [compactItems, ih, List.map_cons]

theorem compactEntries_eq_map (es : Entries Value) :
    compactEntries es = es.map fun e => quote e.1 ++ ':' :: compact e.2 := by
  induction es with
  | nil => rfl
  | cons e es ih => rw [compactEntries, ih, List.map_cons]

theorem indentedItems_eq_map (depth : Nat) (items : List Value) :
    indentedItems depth items = items.map (indented depth) := by
  induction items with
  | nil => rfl
  | cons x items ih => rw [indentedItems, ih, List.map_cons]

theorem indentedEntries_eq_map (depth : Nat) (es : Entries Value) :
    indentedEntries depth es = es.map fun e => quote e.1 ++ ':' :: ' ' :: indented depth e.2 := by
  induction es with
  | nil => rfl
  | cons e es ih => rw [indentedEntries, ih, List.map_cons]

theorem isSpace_of_mem_newLine {depth : Nat} {c : Char} (h : c ∈ newLine depth) :
    Reader.isSpace c := by
  rcases List.mem_cons.mp h with rfl | h
  · rfl
  · rw [List.eq_of_mem_replicate h]
    rfl

/-- A block is a bracketed list with blanks after the brackets and the commas. -/
theorem exists_block_eq (opening closing : Char) (depth : Nat) (parts : List (List Char)) :
    ∃ pad pad', (∀ c ∈ pad, Reader.isSpace c) ∧ (∀ c ∈ pad', Reader.isSpace c) ∧
      block opening closing depth parts =
        opening :: (pad ++ (joinWith (',' :: pad) parts ++ (pad' ++ [closing]))) := by
  cases parts with
  | nil => exact ⟨[], [], by simp, by simp, rfl⟩
  | cons part parts =>
      exact ⟨newLine (depth + 1), newLine depth, fun _ => isSpace_of_mem_newLine,
        fun _ => isSpace_of_mem_newLine, by simp [block]⟩

end Json

/-- No scalar of the value is a float. -/
def Value.FloatFree (v : Value) : Prop :=
  ∀ x, .float x ∉ v.leaves

theorem Value.FloatFree.of_seq {items : List Value} (h : (seq items).FloatFree) {x : Value}
    (hx : x ∈ items) : x.FloatFree := by
  intro y hy
  rw [FloatFree, leaves_seq] at h
  exact h y (List.mem_flatMap.mpr ⟨x, hx, hy⟩)

theorem Value.FloatFree.of_map {es : Entries Value} (h : (map es).FloatFree) {e : String × Value}
    (he : e ∈ es) : e.2.FloatFree := by
  intro y hy
  rw [FloatFree, leaves_map] at h
  exact h y (List.mem_flatMap.mpr ⟨e, he, hy⟩)

theorem Value.FloatFree.ne_float {s : Scalar} (h : (scalar s).FloatFree) (x : Binary64) :
    s ≠ .float x := by
  rintro rfl
  exact h x List.mem_cons_self

namespace Json

variable {v : Value}

theorem conveys_compact (hv : v.WellFormed) (hfloat : v.FloatFree) : Conveys v (compact v) := by
  induction hv with
  | scalar s => exact conveys_scalar hfloat.ne_float
  | @seq items _ ih =>
      have hparts : List.Forall₂ Conveys items (items.map compact) :=
        List.forall₂_map_right_iff.mpr (List.forall₂_same.mpr fun x hx =>
          ih x hx (hfloat.of_seq hx))
      rw [compact, compactItems_eq_map]
      exact conveys_seq hparts (List.forall_mem_nil _) (List.forall_mem_nil _)
  | @map es hes _ ih =>
      have hparts : List.Forall₂ (ConveysEntry []) es
          (es.map fun e => quote e.1 ++ ':' :: compact e.2) :=
        List.forall₂_map_right_iff.mpr (List.forall₂_same.mpr fun e he =>
          ⟨_, rfl, ih e he (hfloat.of_map he)⟩)
      rw [compact, compactEntries_eq_map]
      exact conveys_map hparts hes (List.forall_mem_nil _) (List.forall_mem_nil _)
        (List.forall_mem_nil _)

theorem conveys_indented (hv : v.WellFormed) (hfloat : v.FloatFree) (depth : Nat) :
    Conveys v (indented depth v) := by
  induction hv generalizing depth with
  | scalar s => exact conveys_scalar hfloat.ne_float
  | @seq items _ ih =>
      have hparts : List.Forall₂ Conveys items (items.map (indented (depth + 1))) :=
        List.forall₂_map_right_iff.mpr (List.forall₂_same.mpr fun x hx =>
          ih x hx (hfloat.of_seq hx) (depth + 1))
      obtain ⟨pad, pad', hpad, hpad', hblock⟩ := exists_block_eq '[' ']' depth
        (items.map (indented (depth + 1)))
      rw [indented, indentedItems_eq_map, hblock]
      exact conveys_seq hparts hpad hpad'
  | @map es hes _ ih =>
      have hparts : List.Forall₂ (ConveysEntry [' ']) es
          (es.map fun e => quote e.1 ++ ':' :: ' ' :: indented (depth + 1) e.2) :=
        List.forall₂_map_right_iff.mpr (List.forall₂_same.mpr fun e he =>
          ⟨_, rfl, ih e he (hfloat.of_map he) (depth + 1)⟩)
      obtain ⟨pad, pad', hpad, hpad', hblock⟩ := exists_block_eq '\x7b' '\x7d' depth
        (es.map fun e => quote e.1 ++ ':' :: ' ' :: indented (depth + 1) e.2)
      rw [indented, indentedEntries_eq_map, hblock]
      exact conveys_map hparts hes hpad hpad' (by simp [Reader.isSpace])

theorem conveys_print (hv : v.WellFormed) (hfloat : v.FloatFree) (pretty : Bool) :
    Conveys v (print pretty v) := by
  cases pretty with
  | false => exact conveys_compact hv hfloat
  | true => exact conveys_indented hv hfloat 0

/-- A text that delivers a value is read as that value, also with blanks after it. -/
theorem Conveys.read?_eq {cs pad : List Char} (h : Conveys v cs) (hheight : v.height < 128)
    (hpad : ∀ c ∈ pad, Reader.isSpace c) : read? (cs ++ pad) = some v := by
  have hvalue : Reader.Takes .start cs ⟨[], .nothing v⟩ :=
    h _ _ (Or.inl rfl) (by simpa [Grammar.start, Grammar.depthBound] using hheight) rfl
  have hblanks : Reader.EndsWord pad := by
    have hblanks := Reader.endsWord_append hpad Reader.endsWord_nil
    rwa [List.append_nil] at hblanks
  obtain ⟨r, hr, hsettled⟩ :=
    hvalue.append hblanks (Reader.takes_of_feed (Reader.feed_blanks hpad _))
  have hfold : (cs ++ pad).foldlM Reader.step Reader.start = some r := hr
  simp [read?, hfold, hsettled.finish_eq, Reader.result?]

end Json

theorem exists_endWithBreak_eq (cs : List Char) :
    ∃ pad, (∀ c ∈ pad, Json.Reader.isSpace c) ∧ endWithBreak cs = cs ++ pad := by
  rw [endWithBreak]
  split
  · exact ⟨[], by simp, by simp⟩
  · exact ⟨['\n'], by simp [Json.Reader.isSpace], rfl⟩

/-- What is rendered as JSON loads as the same value, with the entries of its maps in their order,
both as JSON and when the format has to be found out. -/
theorem readDocument_render {v : Value} (hv : v.WellFormed) (hfloat : v.FloatFree)
    (hheight : v.height ≤ 127) (pretty : Bool) :
    readDocument (some .json) (render v .json pretty) = .ok v ∧
      readDocument none (render v .json pretty) = .ok v := by
  obtain ⟨pad, hpad, hbreak⟩ := exists_endWithBreak_eq (Json.print pretty v)
  have hread : Json.read? (render v .json pretty) = some v := by
    rw [render, hbreak]
    exact (Json.conveys_print hv hfloat pretty).read?_eq (by omega) hpad
  constructor
  · simp [readDocument, Format.read, hread, Except.mapError]
  · simp [readDocument, Format.detect, Format.read, hread]

/-- Keys and texts that look like JSON, the least integer, and empty containers. -/
def lookalikes : Value :=
  .map [
    ("", .scalar (.int (-9223372036854775808))),
    ("null", .seq [.scalar .null, .scalar (.text "null"), .scalar (.text "-1"), .seq [], .map []]),
    ("\n\t\u0001\"\\", .scalar (.text "[\"\u001f\u007f\"]\n\n"))]

theorem readDocument_render_lookalikes :
    lookalikes.WellFormed ∧ lookalikes.FloatFree ∧ lookalikes.height ≤ 127 ∧
      readDocument (some .json) (render lookalikes .json true) = .ok lookalikes ∧
      readDocument none (render lookalikes .json false) = .ok lookalikes := by
  have hv : lookalikes.WellFormed := by simp [lookalikes, Entries.keys]
  have hfloat : lookalikes.FloatFree := by
    simp [lookalikes, Value.FloatFree, Value.leaves, Value.leavesOfEntries, Value.leavesOfItems]
  have hheight : lookalikes.height ≤ 127 := by decide
  exact ⟨hv, hfloat, hheight, (readDocument_render hv hfloat hheight true).1,
    (readDocument_render hv hfloat hheight false).2⟩

end PathRules
