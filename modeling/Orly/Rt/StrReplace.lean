import Mathlib.Data.List.Basic

/-! The `replace` built-in, `TStrReplace::Replace` (`orly/rt/str_replace.h`), over
`TRegex::TryGetMatch` (`utf8/regex.cc`).

`Replace` takes its text by value and keeps two pointers into it: `old_string`, the
buffer's start, and `curr_start`, where the next search starts. Its loop searches from
`curr_start` with flags 0, replaces the match in the string, and moves `curr_start` to the
match's limit, computed against the text before the edit. The model keeps the buffer in
place, as the code assumes (an edit that outgrows the string's capacity moves the buffer,
and both pointers dangle), and counts in offsets from its start: `pos` is
`curr_start - old_string`.

Three things follow. Every search treats its start as the beginning of a line, where
`TRegexSplitter` sets `REG_NOTBOL` after its first match (`replace_anchored_twice`).
After a replacement longer than its match the next search starts inside the replacement
(`replace_grows_forever`); after a shorter one it starts past text of the original that no
search reads (`replace_skips_after_shorter`). Where every match is as long as the
replacement and the regex does not look at the beginning of a line, the loop replaces
each successive match of the original text (`replaceLoop_eq_replaceEach`).

A regex is given by its `regexec`: the leftmost match in a text as start and limit
offsets, with `REG_NOTBOL` set or not. -/
namespace Orly.Rt

section Loop

variable (regexec : List Char → Bool → Option (Nat × Nat)) (newstr : List Char)

/-- The `while` loop of `TStrReplace::Replace`, for at most `fuel` rounds, on the buffer
`oldstr` with the next search at offset `pos`. Past the buffer's end the search reads an
empty text. -/
def replaceLoop : Nat → List Char → Nat → Option (List Char)
  | 0, _, _ => none
  | fuel + 1, oldstr, pos =>
    match regexec (oldstr.drop pos) false with
    | none => some oldstr
    | some (start, limit) =>
      replaceLoop fuel (oldstr.take (pos + start) ++ newstr ++ oldstr.drop (pos + limit))
        (pos + limit)

/-- `TStrReplace::Replace(oldstr, regex, newstr)`, with at most `fuel` rounds of its loop. -/
def replace (fuel : Nat) (oldstr : List Char) : Option (List Char) :=
  replaceLoop regexec newstr fuel oldstr 0

/-- The replacement the built-in is meant to make: each successive leftmost match of the
original text replaced by `newstr`, each search after the first starting at the end of the
previous match with `REG_NOTBOL`. -/
def replaceEach : Nat → List Char → Bool → Option (List Char)
  | 0, _, _ => none
  | fuel + 1, text, notBol =>
    match regexec text notBol with
    | none => some text
    | some (start, limit) =>
      (text.take start ++ newstr ++ ·) <$> replaceEach fuel (text.drop limit) true

variable {regexec newstr} {fuel : Nat} {oldstr text : List Char} {pos start limit : Nat}

theorem replaceLoop_of_none (found : regexec (oldstr.drop pos) false = none) :
    replaceLoop regexec newstr (fuel + 1) oldstr pos = some oldstr := by
  simp [replaceLoop, found]

theorem replaceLoop_of_some (found : regexec (oldstr.drop pos) false = some (start, limit)) :
    replaceLoop regexec newstr (fuel + 1) oldstr pos =
      replaceLoop regexec newstr fuel
        (oldstr.take (pos + start) ++ newstr ++ oldstr.drop (pos + limit)) (pos + limit) := by
  simp [replaceLoop, found]

theorem replaceEach_of_none {notBol : Bool} (found : regexec text notBol = none) :
    replaceEach regexec newstr (fuel + 1) text notBol = some text := by
  simp [replaceEach, found]

theorem replaceEach_of_some {notBol : Bool} (found : regexec text notBol = some (start, limit)) :
    replaceEach regexec newstr (fuel + 1) text notBol =
      (text.take start ++ newstr ++ ·) <$> replaceEach regexec newstr fuel (text.drop limit) true := by
  simp [replaceEach, found]

end Loop

/-- The regexes of the examples: a literal, anchored at the beginning of a line by `^` or
not. -/
structure Literal where
  anchored : Bool
  chars : List Char

namespace Literal

/-- The offset of the leftmost occurrence of `chars` in a text, counted from `offset`. -/
def findFrom (chars : List Char) : List Char → Nat → Option Nat
  | [], offset => if chars.isPrefixOf [] then some offset else none
  | c :: cs, offset =>
    if chars.isPrefixOf (c :: cs) then some offset else findFrom chars cs (offset + 1)

/-- `regexec` for a literal, with `REG_EXTENDED` and without `REG_NEWLINE`: `^` matches at
the start of the text only, and there only without `REG_NOTBOL`. -/
def regexec (r : Literal) (text : List Char) (notBol : Bool) : Option (Nat × Nat) :=
  if r.anchored then
    if !notBol && r.chars.isPrefixOf text then some (0, r.chars.length) else none
  else (findFrom r.chars text 0).map fun start => (start, start + r.chars.length)

theorem isPrefixOf_append (chars rest : List Char) : chars.isPrefixOf (chars ++ rest) = true :=
  List.isPrefixOf_iff_prefix.mpr (List.prefix_append chars rest)

theorem isPrefixOf_nil_of_ne {chars : List Char} (nonempty : chars ≠ []) :
    chars.isPrefixOf [] = false := by
  cases chars with
  | nil => exact absurd rfl nonempty
  | cons c cs => rfl

theorem findFrom_of_isPrefixOf {chars text : List Char} (isPrefix : chars.isPrefixOf text = true)
    (offset : Nat) : findFrom chars text offset = some offset := by
  cases text with
  | nil => simp [findFrom, isPrefix]
  | cons c cs => simp [findFrom, isPrefix]

theorem regexec_unanchored_append (chars rest : List Char) (notBol : Bool) :
    regexec ⟨false, chars⟩ (chars ++ rest) notBol = some (0, chars.length) := by
  simp [regexec, findFrom_of_isPrefixOf (isPrefixOf_append chars rest)]

theorem regexec_unanchored_nil {chars : List Char} (nonempty : chars ≠ []) (notBol : Bool) :
    regexec ⟨false, chars⟩ [] notBol = none := by
  simp [regexec, findFrom, isPrefixOf_nil_of_ne nonempty]

theorem regexec_anchored_append (chars rest : List Char) :
    regexec ⟨true, chars⟩ (chars ++ rest) false = some (0, chars.length) := by
  simp [regexec, isPrefixOf_append chars rest]

theorem regexec_anchored_notBol (chars text : List Char) :
    regexec ⟨true, chars⟩ text true = none := by
  simp [regexec]

theorem regexec_anchored_nil {chars : List Char} (nonempty : chars ≠ []) (notBol : Bool) :
    regexec ⟨true, chars⟩ [] notBol = none := by
  simp [regexec, isPrefixOf_nil_of_ne nonempty]

end Literal

section SameLength

variable {regexec : List Char → Bool → Option (Nat × Nat)} {newstr : List Char}

/-- Where the regex ignores `REG_NOTBOL` and each match lies in its text and is as long as
the replacement, the edit leaves the text after the match where it was, and the loop makes
the intended replacement of the text from `pos` on. -/
theorem replaceLoop_eq_replaceEach
    (bolFree : ∀ text, regexec text true = regexec text false)
    (sameLength : ∀ text notBol start limit, regexec text notBol = some (start, limit) →
      start ≤ limit ∧ limit ≤ text.length ∧ limit - start = newstr.length) :
    ∀ (fuel : Nat) (oldstr : List Char) (pos : Nat) (notBol : Bool), pos ≤ oldstr.length →
      replaceLoop regexec newstr fuel oldstr pos =
        (oldstr.take pos ++ ·) <$> replaceEach regexec newstr fuel (oldstr.drop pos) notBol
  | 0, _, _, _, _ => rfl
  | fuel + 1, oldstr, pos, notBol, inBuffer => by
    have sameSearch : regexec (oldstr.drop pos) notBol = regexec (oldstr.drop pos) false := by
      cases notBol
      · rfl
      · exact bolFree _
    simp only [replaceLoop, replaceEach, sameSearch]
    split
    · simp
    · rename_i start limit found
      obtain ⟨ordered, within, sameLen⟩ := sameLength _ _ _ _ found
      simp only [List.length_drop] at within
      have headLength : (oldstr.take (pos + start) ++ newstr).length = pos + limit := by
        simp only [List.length_append, List.length_take]
        omega
      have rest : (oldstr.take (pos + start) ++ newstr ++ oldstr.drop (pos + limit)).drop
          (pos + limit) = (oldstr.drop pos).drop limit := by
        rw [List.drop_left' headLength, List.drop_drop]
      have head : (oldstr.take (pos + start) ++ newstr ++ oldstr.drop (pos + limit)).take
          (pos + limit) = oldstr.take pos ++ ((oldstr.drop pos).take start ++ newstr) := by
        rw [List.take_left' headLength, ← List.append_assoc, List.take_add]
      rw [replaceLoop_eq_replaceEach bolFree sameLength fuel _ (pos + limit) true
        (by simp only [List.length_append, List.length_take, List.length_drop]; omega),
        rest, head]
      simp [Function.comp_def, List.append_assoc]

end SameLength

section Divergence

variable (chars newstr : List Char)

/-- An anchored literal `^chars` in `chars ++ chars`, replaced by a text as long: the
second search starts at a beginning of line, so both copies are replaced, where the
intended replacement, searching with `REG_NOTBOL`, keeps the second. -/
theorem replace_anchored_twice (nonempty : chars ≠ []) (sameLength : newstr.length = chars.length)
    (differs : newstr ≠ chars) (fuel : Nat) :
    replace (Literal.regexec ⟨true, chars⟩) newstr (fuel + 3) (chars ++ chars) =
        some (newstr ++ newstr) ∧
      replaceEach (Literal.regexec ⟨true, chars⟩) newstr (fuel + 2) (chars ++ chars) false =
        some (newstr ++ chars) ∧
      newstr ++ newstr ≠ newstr ++ chars := by
  have firstSearch : Literal.regexec ⟨true, chars⟩ ((chars ++ chars).drop 0) false =
      some (0, chars.length) := Literal.regexec_anchored_append chars chars
  have firstEdit : (chars ++ chars).take (0 + 0) ++ newstr ++ (chars ++ chars).drop (0 + chars.length) =
      newstr ++ chars := by simp
  have secondSearch : Literal.regexec ⟨true, chars⟩ ((newstr ++ chars).drop (0 + chars.length))
      false = some (0, chars.length) := by
    have found := Literal.regexec_anchored_append chars []
    rw [List.append_nil] at found
    rwa [Nat.zero_add, ← sameLength, List.drop_left, sameLength]
  have secondEdit : (newstr ++ chars).take (0 + chars.length + 0) ++ newstr ++
      (newstr ++ chars).drop (0 + chars.length + chars.length) = newstr ++ newstr := by
    simp [← sameLength]
  have thirdSearch : Literal.regexec ⟨true, chars⟩
      ((newstr ++ newstr).drop (0 + chars.length + chars.length)) false = none := by
    simp [← sameLength, Literal.regexec_anchored_nil nonempty]
  have keepsSecond : Literal.regexec ⟨true, chars⟩ ((chars ++ chars).drop chars.length) true = none :=
    Literal.regexec_anchored_notBol chars _
  refine ⟨?_, ?_, fun same => differs (List.append_cancel_left same)⟩
  · rw [replace, replaceLoop_of_some firstSearch, firstEdit, replaceLoop_of_some secondSearch,
      secondEdit, replaceLoop_of_none thirdSearch]
  · rw [replaceEach_of_some (Literal.regexec_anchored_append chars chars),
      replaceEach_of_none keepsSecond]
    simp

/-- The loop reaches the same buffer after every round when the replacement ends with the
literal it replaces: from `b^k a` it searches at `a` and makes `b^(k+1) a`. -/
theorem replaceLoop_grows (a b : Char) :
    ∀ (fuel count : Nat), replaceLoop (Literal.regexec ⟨false, [a]⟩) [b, a] fuel
      (List.replicate count b ++ [a]) count = none
  | 0, _ => rfl
  | fuel + 1, count => by
    have search : (List.replicate count b ++ [a]).drop count = [a] ++ [] := by
      simp [List.drop_left' (List.length_replicate ..)]
    have edit : (List.replicate count b ++ [a]).take (count + 0) ++ [b, a] ++
        (List.replicate count b ++ [a]).drop (count + 1) = List.replicate (count + 1) b ++ [a] := by
      simp [List.take_left' (List.length_replicate ..), List.replicate_succ']
    simp only [replaceLoop, search, Literal.regexec_unanchored_append]
    rw [List.length_singleton, edit]
    exact replaceLoop_grows a b fuel (count + 1)

/-- Replacing a one-character literal by a text that ends with it never returns, where
the intended replacement is made in one round. -/
theorem replace_grows_forever (a b : Char) (fuel : Nat) :
    replace (Literal.regexec ⟨false, [a]⟩) [b, a] fuel [a] = none ∧
      replaceEach (Literal.regexec ⟨false, [a]⟩) [b, a] (fuel + 2) [a] false = some [b, a] := by
  refine ⟨replaceLoop_grows a b fuel 0, ?_⟩
  have found : Literal.regexec ⟨false, [a]⟩ [a] false = some (0, 1) :=
    Literal.regexec_unanchored_append [a] [] false
  rw [replaceEach_of_some found]
  simp [replaceEach_of_none (Literal.regexec_unanchored_nil (List.cons_ne_nil a []) true)]

/-- Replacing `chars` in `chars ++ chars` by nothing: the second search starts past the
end of the shortened text, and the second copy stays. -/
theorem replace_skips_after_shorter (nonempty : chars ≠ []) (fuel : Nat) :
    replace (Literal.regexec ⟨false, chars⟩) [] (fuel + 2) (chars ++ chars) = some chars ∧
      replaceEach (Literal.regexec ⟨false, chars⟩) [] (fuel + 3) (chars ++ chars) false =
        some [] := by
  have rest : (chars ++ chars).drop chars.length = chars ++ [] := by
    rw [List.drop_left, List.append_nil]
  refine ⟨?_, ?_⟩
  · simp only [replace, replaceLoop, List.drop_zero, Literal.regexec_unanchored_append,
      Nat.zero_add, List.take_zero, List.nil_append, rest]
    simp [Literal.regexec_unanchored_nil nonempty]
  · simp only [replaceEach, Literal.regexec_unanchored_append, List.take_zero, rest]
    simp [Literal.regexec_unanchored_nil nonempty]

end Divergence

/-- `replace("aa", "^a", "b")` gives `"bb"`; the intended result is `"ba"`. -/
theorem replace_caret_a :
    replace (Literal.regexec ⟨true, ['a']⟩) ['b'] 3 (['a'] ++ ['a']) = some (['b'] ++ ['b']) ∧
      replaceEach (Literal.regexec ⟨true, ['a']⟩) ['b'] 2 (['a'] ++ ['a']) false =
        some (['b'] ++ ['a']) ∧
      ['b'] ++ ['b'] ≠ ['b'] ++ ['a'] :=
  replace_anchored_twice ['a'] ['b'] (by decide) rfl (by decide) 0

end Orly.Rt
