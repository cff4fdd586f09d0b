import Mathlib.Computability.Language

/-!
# The matcher of grep

`match`, `matchhere` and `matchstar` of `user/grep.c`. A pointer into a C string is the list of the
characters from there to the NUL, so `*text` is the head of the list, and the NUL is its end.
-/

namespace Xv6.Grep

/-- `matchstar`; `here` is `matchhere` of the pattern behind the `*`. -/
def matchstar (here : List Char → Bool) (c : Char) : List Char → Bool
  | [] => here []
  | t :: text => here (t :: text) || ((t == c || c == '.') && matchstar here c text)

/-- `matchhere`: the pattern is searched for at the beginning of the text. -/
def matchhere : List Char → List Char → Bool
  | [], _ => true
  | [c], text =>
    if c = '$' then text.isEmpty
    else
      match text with
      | [] => false
      | t :: text => (c == '.' || c == t) && matchhere [] text
  | c :: d :: re, text =>
    if d = '*' then matchstar (matchhere re) c text
    else
      match text with
      | [] => false
      | t :: text => (c == '.' || c == t) && matchhere (d :: re) text

/-- The loop of `match`: it must look at the empty string, too. -/
def matchLoop (re : List Char) : List Char → Bool
  | [] => matchhere re []
  | t :: text => matchhere re (t :: text) || matchLoop re text

def match_ : List Char → List Char → Bool
  | '^' :: re, text => matchhere re text
  | re, text => matchLoop re text

/-- An item of a pattern: `c*`, `.`, a literal character, or the `$` at the end. -/
inductive Item
  | star (c : Char)
  | any
  | lit (c : Char)
  | eot

def single (c : Char) : Item := if c = '.' then .any else .lit c

def items : List Char → List Item
  | [] => []
  | [c] => if c = '$' then [.eot] else [single c]
  | c :: d :: re => if d = '*' then .star c :: items re else single c :: items (d :: re)

def body : List Char → List Char
  | '^' :: re => re
  | re => re

/-- What one character of a pattern stands for. -/
def chars (c : Char) : Language Char := {w | ∃ t, w = [t] ∧ (c = '.' ∨ c = t)}

def Item.language : Item → Language Char
  | star c => KStar.kstar (chars c)
  | any => chars '.'
  | lit c => {[c]}
  | eot => 1

def language (l : List Item) : Language Char := (l.map Item.language).prod

/-- Some part of the text is in the language of the items: a beginning of the text if there is a
`^`, and an end of it if there is a `$`. -/
def Matches (re text : List Char) : Prop :=
  ∃ before part after, text = before ++ part ++ after ∧ part ∈ language (items (body re)) ∧
    (re.head? = some '^' → before = []) ∧ (.eot ∈ items (body re) → after = [])

variable {c : Char} {re text : List Char} {l : List Item}

theorem language_nil : language [] = 1 := rfl

theorem language_cons (i : Item) (l : List Item) : language (i :: l) = i.language * language l := rfl

theorem single_language (c : Char) : (single c).language = chars c := by
  rw [single]
  split
  · rename_i hc
    rw [hc]
    rfl
  · rename_i hc
    ext w
    constructor
    · rintro rfl
      exact ⟨c, rfl, Or.inr rfl⟩
    · rintro ⟨t, rfl, hdot | rfl⟩
      · exact absurd hdot hc
      · rfl

theorem eot_ne_single : Item.eot ≠ single c := by
  rw [single]
  split <;> nofun

theorem mem_kstar_chars {w : List Char} : w ∈ KStar.kstar (chars c) ↔ ∀ t ∈ w, c = '.' ∨ c = t := by
  rw [Language.mem_kstar]
  constructor
  · rintro ⟨ws, rfl, hws⟩ t ht
    obtain ⟨w, hw, htw⟩ := List.mem_flatten.1 ht
    obtain ⟨u, rfl, hu⟩ := hws w hw
    rw [List.mem_singleton.1 htw]
    exact hu
  · intro h
    refine ⟨w.map (fun t => [t]), ?_, ?_⟩
    · induction w with
      | nil => rfl
      | cons t w ih =>
        rw [List.map_cons, List.flatten_cons, ← ih (fun u hu => h u (List.mem_cons_of_mem t hu))]
        rfl
    · intro u hu
      obtain ⟨t, ht, rfl⟩ := List.mem_map.1 hu
      exact ⟨t, rfl, h t ht⟩

/-- Some characters are skipped, the fewest first, and the rest is left to `here`. -/
theorem matchstar_iff (here : List Char → Bool) :
    matchstar here c text = true ↔
      ∃ w rest, text = w ++ rest ∧ w ∈ KStar.kstar (chars c) ∧ here rest = true := by
  induction text with
  | nil =>
    rw [matchstar]
    constructor
    · exact fun h => ⟨[], [], rfl, Language.nil_mem_kstar _, h⟩
    · rintro ⟨w, rest, hw, -, h⟩
      obtain ⟨rfl, rfl⟩ := List.append_eq_nil_iff.1 hw.symm
      exact h
  | cons t text ih =>
    rw [matchstar, Bool.or_eq_true, Bool.and_eq_true, ih, Bool.or_eq_true, beq_iff_eq, beq_iff_eq]
    constructor
    · rintro (h | ⟨hc, w, rest, rfl, hw, h⟩)
      · exact ⟨[], t :: text, rfl, Language.nil_mem_kstar _, h⟩
      · refine ⟨t :: w, rest, rfl, mem_kstar_chars.2 ?_, h⟩
        intro u hu
        rcases List.mem_cons.1 hu with rfl | hu
        · exact hc.symm.imp_right Eq.symm
        · exact mem_kstar_chars.1 hw u hu
    · rintro ⟨w, rest, hw, hstar, h⟩
      cases w with
      | nil =>
        rw [List.nil_append] at hw
        exact Or.inl (hw ▸ h)
      | cons u w =>
        obtain ⟨rfl, rfl⟩ := List.cons.inj hw
        have hall := mem_kstar_chars.1 hstar
        refine Or.inr ⟨(hall t List.mem_cons_self).symm.imp_left Eq.symm, w, rest, rfl, ?_, h⟩
        exact mem_kstar_chars.2 (fun u hu => hall u (List.mem_cons_of_mem t hu))

/-- The items match at the beginning of the text. -/
def Begins (l : List Item) (text : List Char) : Prop :=
  ∃ part after, text = part ++ after ∧ part ∈ language l ∧ (.eot ∈ l → after = [])

/-- The first item takes a part of the text, and the others begin behind it. -/
theorem begins_cons {i : Item} (hi : Item.eot ≠ i) : Begins (i :: l) text ↔
    ∃ w rest, text = w ++ rest ∧ w ∈ i.language ∧ Begins l rest := by
  constructor
  · rintro ⟨part, after, rfl, hpart, hend⟩
    obtain ⟨w, hw, v, hv, rfl⟩ := Language.mem_mul.1 (language_cons i l ▸ hpart)
    refine ⟨w, v ++ after, List.append_assoc w v after, hw, v, after, rfl, hv, ?_⟩
    exact fun h => hend (List.mem_cons_of_mem i h)
  · rintro ⟨w, rest, rfl, hw, v, after, rfl, hv, hend⟩
    refine ⟨w ++ v, after, (List.append_assoc w v after).symm, ?_, ?_⟩
    · rw [language_cons]
      exact Language.append_mem_mul hw hv
    · exact fun h => hend ((List.mem_cons.1 h).resolve_left hi)

theorem begins_single : Begins (single c :: l) text ↔
    ∃ t rest, text = t :: rest ∧ (c = '.' ∨ c = t) ∧ Begins l rest := by
  rw [begins_cons eot_ne_single, single_language]
  constructor
  · rintro ⟨w, rest, rfl, ⟨t, rfl, ht⟩, hrest⟩
    exact ⟨t, rest, rfl, ht, hrest⟩
  · rintro ⟨t, rest, rfl, ht, hrest⟩
    exact ⟨[t], rest, rfl, ⟨t, rfl, ht⟩, hrest⟩

theorem matchChar_iff {re : List Char} (ih : ∀ text, matchhere re text = true ↔ Begins (items re) text) :
    (match text with
      | [] => false
      | t :: text => (c == '.' || c == t) && matchhere re text) = true ↔
    Begins (single c :: items re) text := by
  rw [begins_single]
  cases text with
  | nil =>
    constructor
    · intro h
      cases h
    · rintro ⟨t, rest, h, -⟩
      cases h
  | cons t text =>
    rw [Bool.and_eq_true, Bool.or_eq_true, beq_iff_eq, beq_iff_eq, ih]
    constructor
    · exact fun h => ⟨t, text, rfl, h⟩
    · rintro ⟨u, rest, h, hu⟩
      cases h
      exact hu

theorem matchhere_iff (re text : List Char) : matchhere re text = true ↔ Begins (items re) text := by
  have hnil : ∀ text, matchhere [] text = true ↔ Begins (items []) text := by
    intro text
    constructor
    · exact fun _ => ⟨[], text, rfl, rfl, fun h => nomatch h⟩
    · exact fun _ => rfl
  induction re using items.induct generalizing text with
  | case1 => exact hnil text
  | case2 =>
    have hitems : items ['$'] = [.eot] := rfl
    have hmatch : matchhere ['$'] text = text.isEmpty := rfl
    have hone : ∀ {part}, part ∈ language [.eot] ↔ part = [] := by
      intro part
      rw [language_cons, language_nil, mul_one]
      rfl
    rw [hitems, hmatch, List.isEmpty_iff]
    constructor
    · rintro rfl
      exact ⟨[], [], rfl, hone.2 rfl, fun _ => rfl⟩
    · rintro ⟨part, after, rfl, hpart, hend⟩
      rw [hone.1 hpart, hend List.mem_cons_self]
      rfl
  | case3 c hc =>
    rw [items, if_neg hc]
    exact (iff_of_eq (congrArg (· = true) (if_neg hc))).trans (matchChar_iff hnil)
  | case4 c re ih =>
    have hstar : matchhere (c :: '*' :: re) text = matchstar (matchhere re) c text := if_pos rfl
    rw [hstar, items, if_pos rfl, matchstar_iff, begins_cons (i := .star c) nofun]
    simp only [ih]
    rfl
  | case5 c d re hd ih =>
    rw [items, if_neg hd]
    exact (iff_of_eq (congrArg (· = true) (if_neg hd))).trans (matchChar_iff ih)

theorem matchLoop_iff (re text : List Char) : matchLoop re text = true ↔
    ∃ before rest, text = before ++ rest ∧ matchhere re rest = true := by
  induction text with
  | nil =>
    rw [matchLoop]
    constructor
    · exact fun h => ⟨[], [], rfl, h⟩
    · rintro ⟨before, rest, hnil, h⟩
      obtain ⟨rfl, rfl⟩ := List.append_eq_nil_iff.1 hnil.symm
      exact h
  | cons t text ih =>
    rw [matchLoop, Bool.or_eq_true, ih]
    constructor
    · rintro (h | ⟨before, rest, rfl, h⟩)
      · exact ⟨[], t :: text, rfl, h⟩
      · exact ⟨t :: before, rest, rfl, h⟩
    · rintro ⟨before, rest, hcons, h⟩
      cases before with
      | nil => exact Or.inl (hcons ▸ h)
      | cons u before =>
        obtain ⟨rfl, rfl⟩ := List.cons.inj hcons
        exact Or.inr ⟨before, rest, rfl, h⟩

/-- The matcher finds what the pattern says. -/
theorem match_correct (re text : List Char) : match_ re text = true ↔ Matches re text := by
  by_cases hcaret : re.head? = some '^'
  · obtain ⟨re, rfl⟩ := List.head?_eq_some_iff.1 hcaret
    change matchhere re text = true ↔ _
    rw [matchhere_iff]
    constructor
    · rintro ⟨part, after, htext, h⟩
      exact ⟨[], part, after, htext, h.1, fun _ => rfl, h.2⟩
    · rintro ⟨before, part, after, htext, hpart, hbefore, hafter⟩
      rw [hbefore rfl] at htext
      exact ⟨part, after, htext, hpart, hafter⟩
  · have hbody : body re = re := by
      rw [body]
      rintro re rfl
      exact hcaret rfl
    have hloop : match_ re text = matchLoop re text := by
      rw [match_]
      rintro re rfl
      exact hcaret rfl
    rw [hloop, matchLoop_iff, Matches, hbody]
    constructor
    · rintro ⟨before, rest, rfl, h⟩
      obtain ⟨part, after, rfl, hpart, hafter⟩ := (matchhere_iff re rest).1 h
      exact ⟨before, part, after, (List.append_assoc before part after).symm, hpart,
        fun h => absurd h hcaret, hafter⟩
    · rintro ⟨before, part, after, rfl, hpart, -, hafter⟩
      exact ⟨before, part ++ after, List.append_assoc before part after,
        (matchhere_iff re _).2 ⟨part, after, rfl, hpart, hafter⟩⟩

example : match_ "^a.*b$".toList "a123b".toList = true := by decide

end Xv6.Grep
