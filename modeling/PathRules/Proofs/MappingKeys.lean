import Mathlib.Data.List.Induction
import PathRules.Proofs.PrintedJson
import PathRules.Yaml.Document

/-!
# Mappings whose keys are spelled alike

A mapping becomes a map by spelling its keys, and the entries are inserted one after the other. Keys
that differ can be spelled alike, as the number one and the text of its numeral are, and then the
later entry takes the place of the earlier one. So a mapping keeps its entries exactly if no two of
its keys have one spelling. This is carried from one mapping to all that a node holds, in sequences,
in the values of entries and under tags.
-/

namespace PathRules

namespace Entries

variable {α : Type}

theorem ofPairs_append_singleton (ps : List (String × α)) (p : String × α) :
    ofPairs (ps ++ [p]) = (ofPairs ps).insert p.1 p.2 := by
  rw [ofPairs, List.foldl_append]
  rfl

/-- The keys are those of the pairs, each at the place of its first pair. -/
theorem keys_ofPairs (ps : List (String × α)) :
    (ofPairs ps).keys = (ps.map Prod.fst).eraseDups := by
  induction ps using List.reverseRecOn with
  | nil => rfl
  | append_singleton ps p ih =>
      rw [ofPairs_append_singleton, keys_insert, ih, List.map_append, List.map_singleton,
        List.eraseDups_append, List.removeAll]
      by_cases hkey : p.1 ∈ ps.map Prod.fst
      · rw [if_pos (List.mem_eraseDups.mpr hkey), List.filter_cons_of_neg (by simpa using hkey),
          List.filter_nil, List.eraseDups_nil, List.append_nil]
      · rw [if_neg (mt List.mem_eraseDups.mp hkey), List.filter_cons_of_pos (by simpa using hkey),
          List.filter_nil]
        rfl

/-- A key has the value of its last pair. -/
theorem get?_ofPairs (ps : List (String × α)) (key : String) :
    (ofPairs ps).get? key = (ps.reverse.find? fun p => p.1 = key).map Prod.snd := by
  induction ps using List.reverseRecOn with
  | nil => rfl
  | append_singleton ps p ih =>
      rw [ofPairs_append_singleton, get?_insert, ih, List.reverse_append, List.reverse_singleton,
        List.singleton_append, List.find?_cons]
      by_cases hkey : p.1 = key <;> simp [hkey]

theorem nodup_keys_ofPairs (ps : List (String × α)) : (ofPairs ps).keys.Nodup := by
  induction ps using List.reverseRecOn with
  | nil => exact List.nodup_nil
  | append_singleton ps p ih =>
      rw [ofPairs_append_singleton]
      exact nodup_keys_insert ih p.1 p.2

theorem ofPairs_of_nodup {ps : List (String × α)} (h : (ps.map Prod.fst).Nodup) :
    ofPairs ps = ps := by
  induction ps using List.reverseRecOn with
  | nil => rfl
  | append_singleton ps p ih =>
      rw [List.map_append, List.map_singleton] at h
      have hnew : p.1 ∉ keys ps := fun hmem =>
        List.disjoint_of_nodup_append h hmem (List.mem_singleton_self p.1)
      rw [ofPairs_append_singleton, ih (List.Nodup.of_append_left h), insert_of_not_mem hnew]

/-- Nothing is merged exactly if the keys are distinct. -/
theorem ofPairs_eq_iff {ps es : List (String × α)} (h : keys es = keys ps) :
    ofPairs ps = es ↔ (keys ps).Nodup ∧ ps = es := by
  constructor
  · rintro rfl
    have hps : (keys ps).Nodup := h ▸ nodup_keys_ofPairs ps
    exact ⟨hps, (ofPairs_of_nodup hps).symm⟩
  · rintro ⟨hps, rfl⟩
    exact ofPairs_of_nodup hps

end Entries

namespace Yaml.Node

mutual

/-- The value with the entries of every mapping side by side, those that are spelled alike too. -/
def unmerged : Node → Value
  | null => .scalar .null
  | bool b => .scalar (.bool b)
  | int i => .scalar (intScalar i)
  | float x => .scalar (.float x)
  | text s => .scalar (.text s)
  | seq items => .seq (unmergedItems items)
  | map es => .map (unmergedEntries es)
  | tagged _ content => unmerged content

def unmergedItems : List Node → List Value
  | [] => []
  | x :: xs => unmerged x :: unmergedItems xs

def unmergedEntries : List (Node × Node) → List (String × Value)
  | [] => []
  | (k, x) :: es => (keyText k, unmerged x) :: unmergedEntries es

end

theorem unmergedItems_eq_map (items : List Node) : unmergedItems items = items.map unmerged := by
  induction items with
  | nil => rfl
  | cons x items ih => rw [unmergedItems, ih, List.map_cons]

theorem unmergedEntries_eq_map (es : List (Node × Node)) :
    unmergedEntries es = es.map fun e => (keyText e.1, unmerged e.2) := by
  induction es with
  | nil => rfl
  | cons e es ih => rw [unmergedEntries, ih, List.map_cons]

theorem toValues_eq_map (items : List Node) : toValues items = items.map toValue := by
  induction items with
  | nil => rfl
  | cons x items ih => rw [toValues, ih, List.map_cons]

theorem toPairs_eq_map (es : List (Node × Node)) :
    toPairs es = es.map fun e => (keyText e.1, toValue e.2) := by
  induction es with
  | nil => rfl
  | cons e es ih => rw [toPairs, ih, List.map_cons]

def isScalar : Node → Bool
  | null | bool _ | int _ | float _ | text _ => true
  | seq _ | map _ | tagged _ _ => false

theorem induction {P : Node → Prop} (scalar : ∀ n, n.isScalar → P n)
    (seq : ∀ items, (∀ x ∈ items, P x) → P (seq items))
    (map : ∀ es, (∀ e ∈ es, P e.2) → P (map es))
    (tagged : ∀ tag content, P content → P (tagged tag content)) (n : Node) : P n := by
  match n with
  | .null | .bool _ | .int _ | .float _ | .text _ => exact scalar _ rfl
  | .seq items => exact seq items fun x _ => induction scalar seq map tagged x
  | .map es => exact map es fun e _ => induction scalar seq map tagged e.2
  | .tagged tag content => exact tagged tag content (induction scalar seq map tagged content)
termination_by sizeOf n
decreasing_by
  · have hsize := List.sizeOf_lt_of_mem (by assumption : x ∈ items)
    simp only [Node.seq.sizeOf_spec]
    omega
  · have hsize := List.sizeOf_lt_of_mem (by assumption : e ∈ es)
    have hentry : sizeOf e = 1 + sizeOf e.1 + sizeOf e.2 := rfl
    simp only [Node.map.sizeOf_spec]
    omega
  · simp only [Node.tagged.sizeOf_spec]
    omega

/-- Whether a node is met in another one on the way through items, values and tags. -/
inductive Within : Node → Node → Prop
  | self (n : Node) : Within n n
  | item {n x : Node} {items : List Node} (hx : x ∈ items) (h : Within n x) : Within n (seq items)
  | value {n : Node} {e : Node × Node} {es : List (Node × Node)} (he : e ∈ es)
      (h : Within n e.2) : Within n (map es)
  | content {n content : Node} {tag : String} (h : Within n content) : Within n (tagged tag content)

section Within

variable {n : Node} {es fs : List (Node × Node)}

theorem not_within_of_isScalar (h : n.isScalar) : ¬ Within (map es) n := by
  intro hwithin
  cases hwithin <;> cases h

@[simp] theorem not_within_text (s : String) : ¬ Within (map es) (text s) :=
  not_within_of_isScalar rfl

theorem within_seq_iff {items : List Node} :
    Within (map es) (seq items) ↔ ∃ x ∈ items, Within (map es) x := by
  constructor
  · rintro (_ | ⟨hx, h⟩)
    exact ⟨_, hx, h⟩
  · rintro ⟨x, hx, h⟩
    exact .item hx h

theorem within_map_iff :
    Within (map es) (map fs) ↔ es = fs ∨ ∃ f ∈ fs, Within (map es) f.2 := by
  constructor
  · rintro (_ | _ | ⟨hf, h⟩)
    · exact Or.inl rfl
    · exact Or.inr ⟨_, hf, h⟩
  · rintro (rfl | ⟨f, hf, h⟩)
    · exact .self _
    · exact .value hf h

theorem within_tagged_iff {tag : String} :
    Within (map es) (tagged tag n) ↔ Within (map es) n := by
  constructor
  · rintro (_ | _ | _ | h)
    exact h
  · exact .content

end Within

/-- Whether no two keys of a mapping are equal. -/
def DistinctKeys (es : List (Node × Node)) : Prop :=
  es.Pairwise fun e f => e.1.same f.1 = false

/-- Whether no two keys of a mapping are spelled alike. -/
def DistinctTexts (es : List (Node × Node)) : Prop :=
  (es.map fun e => keyText e.1).Nodup

/-- Whether no mapping that a node holds has two keys that are spelled alike. -/
def Unambiguous (n : Node) : Prop :=
  ∀ es, Within (map es) n → DistinctTexts es

theorem unambiguous_scalar {n : Node} (h : n.isScalar) : n.Unambiguous :=
  fun _ hwithin => absurd hwithin (not_within_of_isScalar h)

theorem unambiguous_seq_iff {items : List Node} :
    (seq items).Unambiguous ↔ ∀ x ∈ items, x.Unambiguous := by
  simp only [Unambiguous, within_seq_iff, forall_exists_index, and_imp]
  exact ⟨fun h x hx es hwithin => h es x hx hwithin, fun h es x hx hwithin => h x hx es hwithin⟩

theorem unambiguous_map_iff {es : List (Node × Node)} :
    (map es).Unambiguous ↔ DistinctTexts es ∧ ∀ e ∈ es, e.2.Unambiguous := by
  simp only [Unambiguous, within_map_iff, or_imp, forall_and, forall_eq, forall_exists_index,
    and_imp]
  exact and_congr_right fun _ =>
    ⟨fun h e he fs hwithin => h fs e he hwithin, fun h fs e he hwithin => h e he fs hwithin⟩

theorem unambiguous_tagged_iff {tag : String} {content : Node} :
    (tagged tag content).Unambiguous ↔ content.Unambiguous := by
  simp only [Unambiguous, within_tagged_iff]

theorem toValue_of_isScalar {n : Node} (h : n.isScalar) : n.toValue = n.unmerged := by
  cases n <;> first | rfl | cases h

theorem toValue_eq_unmerged_iff (n : Node) : n.toValue = n.unmerged ↔ n.Unambiguous := by
  induction n using induction with
  | scalar n hn => exact iff_of_true (toValue_of_isScalar hn) (unambiguous_scalar hn)
  | seq items ih =>
      rw [toValue, unmerged, toValues_eq_map, unmergedItems_eq_map, Value.seq.injEq,
        List.map_inj_left, unambiguous_seq_iff]
      exact forall₂_congr ih
  | map es ih =>
      rw [toValue, unmerged, toPairs_eq_map, unmergedEntries_eq_map, Value.map.injEq,
        unambiguous_map_iff, Entries.ofPairs_eq_iff (by simp [Entries.keys]), List.map_inj_left]
      have htexts : (Entries.keys (es.map fun e => (keyText e.1, toValue e.2))).Nodup ↔
          DistinctTexts es := by
        simp [Entries.keys, DistinctTexts, Function.comp_def]
      refine and_congr htexts (forall₂_congr fun e he => ?_)
      rw [Prod.mk.injEq, and_iff_right rfl, ih e he]
  | tagged tag content ih => rwa [toValue, unmerged, unambiguous_tagged_iff]

/-- A mapping becomes a map with the spellings of its keys, each at the place of the first entry so
spelled and with the value of the last. -/
theorem exists_toValue_map (es : List (Node × Node)) :
    ∃ fs : Entries Value, (map es).toValue = .map fs ∧
      fs.keys = (es.map fun e => keyText e.1).eraseDups ∧
      ∀ key, fs.get? key =
        (es.reverse.find? fun e => keyText e.1 = key).map fun e => e.2.toValue := by
  refine ⟨_, rfl, ?_, fun key => ?_⟩
  · rw [Entries.keys_ofPairs, toPairs_eq_map, List.map_map]
    rfl
  · rw [Entries.get?_ofPairs, toPairs_eq_map, ← List.map_reverse, List.find?_map, Option.map_map]
    rfl

section Spelling

def isText : Node → Bool
  | text _ => true
  | _ => false

/-- The empty word, the words of truth, and the integers. -/
def isWord : Node → Bool
  | null | bool _ | int _ => true
  | _ => false

variable {k l : Node}

theorem eq_of_keyText_of_isText (hk : k.isText) (hl : l.isText) (h : k.keyText = l.keyText) :
    k = l := by
  cases k <;> cases hk
  cases l <;> cases hl
  exact congrArg text h

theorem same_self_of_isText (hk : k.isText) : k.same k := by
  cases k <;> cases hk
  exact beq_self_eq_true _

/-- The word with a spelling. -/
def wordOf? (s : String) : Option Node :=
  if s = "null" then some null
  else if s = "true" then some (bool true)
  else if s = "false" then some (bool false)
  else (Numeral.readInt? s.toList).map int

theorem wordOf?_keyText (hk : k.isWord) : wordOf? k.keyText = some k := by
  cases k <;> cases hk
  case null => rfl
  case bool b => cases b <;> rfl
  case int i =>
    have hread : Numeral.readInt? (int i).keyText.toList = some i := by
      simp [keyText, plainText, Numeral.readInt?_intDigits]
    have hne : ∀ s : String, Numeral.readInt? s.toList = none → (int i).keyText ≠ s := by
      rintro s hs rfl
      rw [hread] at hs
      cases hs
    rw [wordOf?, if_neg (hne _ rfl), if_neg (hne _ rfl), if_neg (hne _ rfl), hread,
      Option.map_some]

theorem eq_of_keyText_of_isWord (hk : k.isWord) (hl : l.isWord) (h : k.keyText = l.keyText) :
    k = l := by
  have hword := wordOf?_keyText hk
  rw [h, wordOf?_keyText hl] at hword
  exact (Option.some.inj hword).symm

theorem same_self_of_isWord (hk : k.isWord) : k.same k := by
  cases k <;> cases hk
  · rfl
  all_goals exact beq_self_eq_true _

/-- Whether the keys of a mapping are all texts or all words. -/
def Uniform (es : List (Node × Node)) : Prop :=
  (∀ e ∈ es, e.1.isText) ∨ ∀ e ∈ es, e.1.isWord

theorem distinctTexts_of_uniform {es : List (Node × Node)} (hkeys : DistinctKeys es)
    (huniform : Uniform es) : DistinctTexts es := by
  refine List.pairwise_map.mpr (hkeys.imp_of_mem fun {e f} he hf hne htext => ?_)
  have hsame : e.1.same f.1 := by
    rcases huniform with hall | hall
    · rw [← eq_of_keyText_of_isText (hall e he) (hall f hf) htext]
      exact same_self_of_isText (hall e he)
    · rw [← eq_of_keyText_of_isWord (hall e he) (hall f hf) htext]
      exact same_self_of_isWord (hall e he)
  rw [hne] at hsame
  cases hsame

end Spelling

/-- A node keeps every entry of the mappings that it holds, in order and each with its value,
exactly if no two keys of one mapping are spelled alike. If two are, the entry stays at the place of
the first and takes the value of the last. Different keys that are all texts, or all integers and
words, are never spelled alike. -/
theorem toValue_entries (n : Node) :
    (n.toValue = n.unmerged ↔ n.Unambiguous) ∧
    (∀ es, Within (map es) n → ∃ fs : Entries Value, (map es).toValue = .map fs ∧
      fs.keys = (es.map fun e => keyText e.1).eraseDups ∧
      ∀ key, fs.get? key = (es.reverse.find? fun e => keyText e.1 = key).map fun e => e.2.toValue) ∧
    ((∀ es, Within (map es) n → DistinctKeys es ∧ Uniform es) → n.toValue = n.unmerged) := by
  refine ⟨toValue_eq_unmerged_iff n, fun es _ => exists_toValue_map es, fun h => ?_⟩
  rw [toValue_eq_unmerged_iff]
  intro es hwithin
  obtain ⟨hkeys, huniform⟩ := h es hwithin
  exact distinctTexts_of_uniform hkeys huniform

/-- A mapping under a tag in a mapping, with the integer one for a key in both. -/
def nestedOnes : Node :=
  map [(int 1, tagged "t" (map [(null, text "a"), (int 1, text "b")])), (int (-1), text "c")]

theorem toValue_entries_nestedOnes :
    (∀ es, Within (map es) nestedOnes → DistinctKeys es ∧ Uniform es) ∧
      nestedOnes.toValue = nestedOnes.unmerged := by
  have h : ∀ es, Within (map es) nestedOnes → DistinctKeys es ∧ Uniform es := by
    simp [nestedOnes, within_map_iff, within_tagged_iff, DistinctKeys, Uniform, same, isText,
      isWord, -Prod.forall]
  exact ⟨h, (toValue_entries nestedOnes).2.2 h⟩

/-- The integer one and the text of its numeral as keys of one mapping. -/
def oneTwice : Node :=
  map [(int 1, text "a"), (text "1", text "b")]

/-- Different keys do not keep the entries apart. -/
theorem toValue_oneTwice :
    (∀ es, Within (map es) oneTwice → DistinctKeys es) ∧ oneTwice.toValue ≠ oneTwice.unmerged := by
  constructor
  · simp [oneTwice, within_map_iff, DistinctKeys, same]
  · have hvalue : oneTwice.toValue = .map [("1", .scalar (.text "b"))] := rfl
    rw [hvalue]
    simp [oneTwice, unmerged, unmergedEntries]

end Yaml.Node

end PathRules
