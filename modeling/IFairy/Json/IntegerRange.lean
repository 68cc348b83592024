import IFairy.Framework.Decimals

/-!
# Integers within bounds: `_build_min_max_int`

For an integer with a minimum, a maximum or both, the converter from JSON schemas writes a fragment
of a grammar.  A fragment is a tree here; `render` is the text that the source writes, and
`language` the strings that the fragment stands for.
-/

namespace IFairy.JsonSchema

/-- `'0' + d`. -/
def digitChar (d : ℕ) : Char := Char.ofNat (0x30 + d)

/-! ## Fragments -/

/-- A fragment of a grammar, for digits and the sign. -/
inductive Frag
  | minus
  | lit (digits : List ℕ)
  | digitRange (lo hi : ℕ)
  | moreDigits (minDigits maxDigits : ℕ)
  | seq (a b : Frag)
  | alt (a b : Frag)
  | group (a : Frag)
  deriving DecidableEq

namespace Frag

def digitString (ds : List ℕ) : String := String.ofList (ds.map digitChar)

/-- The text that the source writes. -/
def render : Frag → String
  | minus => "\"-\""
  | lit ds => "\"" ++ digitString ds ++ "\""
  | digitRange lo hi =>
    if lo = hi then "[" ++ digitString [lo] ++ "]"
    else "[" ++ digitString [lo] ++ "-" ++ digitString [hi] ++ "]"
  | moreDigits a b =>
    if a = b ∧ a = 1 then "[0-9]"
    else if a = b then "[0-9]\x7b" ++ toString a ++ "\x7d"
    else "[0-9]\x7b" ++ toString a ++ "," ++ toString b ++ "\x7d"
  | seq a b => a.render ++ " " ++ b.render
  | alt a b => a.render ++ " | " ++ b.render
  | group a => "(" ++ a.render ++ ")"

/-- The strings that the fragment stands for. -/
def language : Frag → Set (List Char)
  | minus => {['-']}
  | lit ds => {ds.map digitChar}
  | digitRange lo hi => {w | ∃ d, lo ≤ d ∧ d ≤ hi ∧ w = [digitChar d]}
  | moreDigits a b =>
    {w | ∃ ds : List ℕ, AllDigits ds ∧ a ≤ ds.length ∧ ds.length ≤ b ∧ w = ds.map digitChar}
  | seq a b => Set.image2 (· ++ ·) a.language b.language
  | alt a b => a.language ∪ b.language
  | group a => a.language

end Frag

open Frag

/-! ## Ranges with the same number of digits -/

/-- `i`: the length of the prefix that the digits share. -/
def sharedLength : List ℕ → List ℕ → ℕ
  | f :: fs, t :: ts => if f = t then sharedLength fs ts + 1 else 0
  | _, _ => 0

/-- What `uniform_range` writes from the first digits `f` and `t` that differ on, with the fragments
of its two recursive calls. -/
def splitRange (f t : ℕ) (fromSub toSub : List ℕ) (low high : Frag) : Frag :=
  let len := fromSub.length
  let zeros := List.replicate len 0
  let nines := List.replicate len 9
  let upper := seq (digitRange t t) high
  if len = 0 then digitRange f t
  else if fromSub = zeros then
    group (alt (seq (digitRange f (t - 1)) (moreDigits len len)) upper)
  else if f < t - 1 then
    if toSub = nines then
      group (alt (seq (digitRange f f) (group low))
        (seq (digitRange (f + 1) t) (moreDigits len len)))
    else
      group (alt (seq (digitRange f f) (group low))
        (alt (seq (digitRange (f + 1) (t - 1)) (moreDigits len len)) upper))
  else group (alt (seq (digitRange f f) (group low)) upper)

/-- `uniform_range` on digits of equal length; the first argument bounds the recursion by that
length. -/
def uniformRange : ℕ → List ℕ → List ℕ → Frag
  | 0, fromDigits, _ => lit fromDigits
  | fuel + 1, fromDigits, toDigits =>
    let i := sharedLength fromDigits toDigits
    match fromDigits.drop i, toDigits.drop i with
    | f :: fromSub, t :: toSub =>
      let rest := splitRange f t fromSub toSub
        (uniformRange fuel fromSub (List.replicate fromSub.length 9))
        (uniformRange fuel (List.replicate fromSub.length 0) toSub)
      if i = 0 then rest else seq (lit (fromDigits.take i)) rest
    | _, _ => lit (fromDigits.take i)

/-- The loop over the numbers of digits, with the rounds that remain. -/
def digitLoop (maxDigits : List ℕ) : ℕ → List ℕ → Frag
  | 0, minDigits => uniformRange minDigits.length minDigits maxDigits
  | rounds + 1, minDigits =>
    alt (uniformRange minDigits.length minDigits (List.replicate minDigits.length 9))
      (digitLoop maxDigits rounds (1 :: List.replicate minDigits.length 0))

/-- The numbers from `min` to `max`, both not negative. -/
def bounded (min max : ℕ) : Frag :=
  digitLoop (decimal max) ((decimal max).length - (decimal min).length) (decimal min)

/-! ## The whole function -/

lemma valueOf_tail_lt {n c : ℕ} {rest : List ℕ} (h : decimal n = c :: rest) (hn : n ≠ 0) :
    valueOf rest < n := by
  have hpos := valueOf_pos (head_decimal_ne_zero h hn) rest
  have hlt := valueOf_lt (allDigits_cons.1 (h ▸ allDigits_decimal n)).2
  rw [← h, valueOf_decimal] at hpos
  omega

/-- `std::numeric_limits<int>::min()`. -/
def intMin : ℤ := -2 ^ 31

/-- `std::numeric_limits<int>::max()`. -/
def intMax : ℤ := 2 ^ 31 - 1

/-- `-x` of an `int`. -/
def negate (x : ℤ) : ℤ := if x = intMin then intMin else -x

/-- What is decided when a call is made: the kind of its bounds. -/
def callRank (minValue maxValue : ℤ) : ℕ :=
  if minValue = intMin then if maxValue = intMax then 0 else 1
  else if minValue < 0 then 2
  else 0

lemma callRank_of_nonneg {minValue : ℤ} (h : 0 ≤ minValue) (maxValue : ℤ) :
    callRank minValue maxValue = 0 := by
  have hmin : minValue ≠ intMin := by rw [intMin]; omega
  rw [callRank, if_neg hmin, if_neg (not_lt.2 h)]

lemma negate_nonneg {x : ℤ} (hne : x ≠ intMin) (hneg : x < 0) : 0 ≤ negate x := by
  rw [negate, if_neg hne]
  omega

lemma callRank_of_neg {minValue : ℤ} (hne : minValue ≠ intMin) (h : minValue < 0) (maxValue : ℤ) :
    callRank minValue maxValue = 2 := by
  rw [callRank, if_neg hne, if_pos h]

lemma callRank_intMin_lt (maxValue : ℤ) : callRank intMin maxValue < 2 := by
  rw [callRank, if_pos rfl]
  split <;> omega

lemma callRank_negate_lt {x : ℤ} (h : x < 0) (maxValue : ℤ) :
    callRank (negate x) maxValue < 2 := by
  by_cases hne : x = intMin
  · rw [negate, if_pos hne]
    exact callRank_intMin_lt maxValue
  · rw [callRank_of_nonneg (negate_nonneg hne h)]
    omega

lemma callRank_negate_intMax {x : ℤ} (h : x < 0) : callRank (negate x) intMax = 0 := by
  by_cases hne : x = intMin
  · rw [negate, if_pos hne, callRank, if_pos rfl, if_pos rfl]
  · exact callRank_of_nonneg (negate_nonneg hne h) _

lemma callRank_intMin {maxValue : ℤ} (h : maxValue ≠ intMax) : callRank intMin maxValue = 1 := by
  rw [callRank, if_pos rfl, if_neg h]

set_option linter.unusedVariables false in
/-- `_build_min_max_int`: the fragment, or the exception. -/
def buildMinMaxInt (minValue maxValue : ℤ) (decimalsLeft : ℕ) (topLevel : Bool) :
    Except String Frag :=
  let lessDecimals := max (decimalsLeft - 1) 1
  if hboth : minValue ≠ intMin ∧ maxValue ≠ intMax then
    if hneg : minValue < 0 ∧ maxValue < 0 then
      match buildMinMaxInt (negate maxValue) (negate minValue) decimalsLeft true with
      | .error e => .error e
      | .ok inner => .ok (seq minus (group inner))
    else if hmin : minValue < 0 then
      match buildMinMaxInt 0 (negate minValue) decimalsLeft true with
      | .error e => .error e
      | .ok inner => .ok (alt (seq minus (group inner)) (bounded 0 maxValue.toNat))
    else .ok (bounded minValue.toNat maxValue.toNat)
  else if hmin : minValue ≠ intMin then
    if hneg : minValue < 0 then
      match buildMinMaxInt intMin (negate minValue) decimalsLeft false with
      | .error e => .error e
      | .ok inner => .ok (alt (seq minus (group inner))
          (alt (digitRange 0 0) (seq (digitRange 1 9) (moreDigits 0 (decimalsLeft - 1)))))
    else if minValue = 0 then
      .ok (if topLevel then
        alt (digitRange 0 0) (seq (digitRange 1 9) (moreDigits 0 lessDecimals))
      else moreDigits 1 decimalsLeft)
    else if minValue ≤ 9 then
      let c := minValue.toNat
      let rangeStart := if topLevel then 1 else 0
      let upper := seq (digitRange c 9) (moreDigits 0 lessDecimals)
      .ok (if rangeStart < c then
        alt (seq (digitRange rangeStart (c - 1)) (moreDigits 1 lessDecimals)) upper
      else upper)
    else
      match hdecimal : decimal minValue.toNat with
      | [] => .error "stoi"
      | c :: rest =>
        match buildMinMaxInt (valueOf rest) intMax lessDecimals false with
        | .error e => .error e
        | .ok inner =>
          let len := rest.length + 1
          let same := seq (digitRange c c) (group inner)
          let upper := if c < 9 then
              alt same (seq (digitRange (c + 1) 9) (moreDigits (len - 1) lessDecimals))
            else same
          .ok (if 1 < c then
            alt (seq (digitRange (if topLevel then 1 else 0) (c - 1)) (moreDigits len lessDecimals))
              upper
          else upper)
  else if maxValue ≠ intMax then
    if hmax : 0 ≤ maxValue then
      match buildMinMaxInt 0 maxValue decimalsLeft true with
      | .error e => .error e
      | .ok inner => .ok (if topLevel then
          alt (seq minus (seq (digitRange 1 9) (moreDigits 0 lessDecimals))) inner
        else inner)
    else
      match buildMinMaxInt (negate maxValue) intMax decimalsLeft false with
      | .error e => .error e
      | .ok inner => .ok (seq minus (group inner))
  else .error "At least one of min_value or max_value must be set"
termination_by (callRank minValue maxValue, minValue.toNat)
decreasing_by
  · refine Prod.Lex.left _ _ ?_
    rw [callRank_of_neg hboth.1 hneg.1]
    exact callRank_negate_lt hneg.2 _
  · refine Prod.Lex.left _ _ ?_
    rw [callRank_of_neg hboth.1 hmin, callRank_of_nonneg le_rfl]
    omega
  · refine Prod.Lex.left _ _ ?_
    rw [callRank_of_neg hmin hneg]
    exact callRank_intMin_lt _
  · rename_i hzero _
    rw [callRank_of_nonneg (Int.natCast_nonneg _), callRank_of_nonneg (not_lt.1 hneg)]
    refine Prod.Lex.right _ ?_
    rw [Int.toNat_natCast]
    exact valueOf_tail_lt hdecimal (by omega)
  · refine Prod.Lex.left _ _ ?_
    rename_i hne
    rw [not_not.1 hmin, callRank_intMin hne, callRank_of_nonneg le_rfl]
    omega
  · refine Prod.Lex.left _ _ ?_
    rename_i hne
    rw [not_not.1 hmin, callRank_intMin hne, callRank_negate_intMax (not_le.1 hmax)]
    omega

end IFairy.JsonSchema
