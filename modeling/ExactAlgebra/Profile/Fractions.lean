import ExactAlgebra.Text.Blank
import ExactAlgebra.Text.Search

/-!
# Fractions in a text

The fraction commands of a text are counted, and the depth of their nesting is measured, without parsing it.
-/

namespace ExactAlgebra.Profile

/-- The commands that write a fraction. -/
def fractionCommands : List (List Char) :=
  ["\\frac".toList, "\\dfrac".toList, "\\tfrac".toList]

/-- The text after the first fraction command. -/
def afterFraction? : List Char → Option (List Char)
  | [] => none
  | c :: cs =>
      match fractionCommands.findSome? fun command => Text.after? command (c :: cs) with
      | some tail => some tail
      | none => afterFraction? cs

/-- The text up to the brace that closes the group open now and the text after it, where `depth` more groups
are open inside that one. -/
def closeGroup? : Nat → List Char → Option (List Char × List Char)
  | _, [] => none
  | depth, c :: cs =>
      if c = '\x7d' then
        match depth with
        | 0 => some ([], cs)
        | depth + 1 => (closeGroup? depth cs).map fun parts => (c :: parts.1, parts.2)
      else if c = '\x7b' then (closeGroup? (depth + 1) cs).map fun parts => (c :: parts.1, parts.2)
      else (closeGroup? depth cs).map fun parts => (c :: parts.1, parts.2)

/-- The inside of a group in braces after leading blanks, and the text after the group. -/
def braceGroup? (text : List Char) : Option (List Char × List Char) :=
  match Text.trimLeft text with
  | c :: cs => if c = '\x7b' then closeGroup? 0 cs else none
  | [] => none

/-- What is known about the fractions of a text: how many there are, and how deep they nest. A fraction that
stands in no other one and has none inside is of level one. -/
structure Fractions where
  count : Nat
  level : Nat
  deriving DecidableEq

namespace Fractions

def empty : Fractions := ⟨0, 0⟩

/-- The fractions of two texts side by side. -/
def beside (a b : Fractions) : Fractions := ⟨a.count + b.count, max a.level b.level⟩

/-- One fraction around others. -/
def around (inner : Fractions) : Fractions := ⟨inner.count + 1, inner.level + 1⟩

def present (f : Fractions) : Bool := 0 < f.count

/-- Whether a fraction stands inside another one. -/
def nested (f : Fractions) : Bool := 1 < f.level

end Fractions

/-! ## Lengths -/

theorem length_afterFraction? {cs tail : List Char} (h : afterFraction? cs = some tail) :
    tail.length < cs.length := by
  induction cs with
  | nil => simp [afterFraction?] at h
  | cons c cs ih =>
      rw [afterFraction?] at h
      split at h
      · next found =>
          obtain ⟨command, hmem, hprefix⟩ := List.exists_of_findSome?_eq_some found
          have := congrArg List.length (Text.after?_eq_some_iff.1 hprefix)
          cases h
          simp only [fractionCommands, List.mem_cons, List.not_mem_nil, or_false] at hmem
          rcases hmem with rfl | rfl | rfl <;> simp at this ⊢ <;> omega
      · simpa using Nat.lt_succ_of_lt (ih h)

theorem length_closeGroup? {depth : Nat} {cs inner rest : List Char}
    (h : closeGroup? depth cs = some (inner, rest)) :
    inner.length + rest.length < cs.length := by
  induction cs generalizing depth inner with
  | nil => simp [closeGroup?] at h
  | cons c cs ih =>
      simp only [closeGroup?] at h
      have step : ∀ {d : Nat}, (closeGroup? d cs).map (fun parts => (c :: parts.1, parts.2)) =
          some (inner, rest) → inner.length + rest.length < (c :: cs).length := by
        intro d hd
        obtain ⟨⟨inner', rest'⟩, hin, heq⟩ := Option.map_eq_some_iff.1 hd
        obtain ⟨rfl, rfl⟩ : c :: inner' = inner ∧ rest' = rest := by simpa using heq
        have := ih hin
        simp only [List.length_cons]
        omega
      split at h
      · split at h
        · cases h; simp
        · exact step h
      · split at h
        · exact step h
        · exact step h

theorem length_braceGroup? {text inner rest : List Char} (h : braceGroup? text = some (inner, rest)) :
    inner.length + rest.length < text.length := by
  have hle := Text.length_trimLeft_le text
  rw [braceGroup?] at h
  split at h
  · next c cs hcs =>
      rw [hcs] at hle
      simp only [List.length_cons] at hle
      split at h
      · have := length_closeGroup? h
        omega
      · simp at h
  · simp at h

/-! ## Scanning -/

/-- The fractions of a text. Their arguments are searched too while `depth` levels are left. A fraction command
without a group after it still counts, and a missing denominator is an empty one. -/
def Fractions.ofText (depth : Nat) (text : List Char) : Fractions :=
  match _hc : afterFraction? text with
  | none => .empty
  | some tail =>
      match _hn : braceGroup? tail with
      | none => (around .empty).beside (ofText depth tail)
      | some (numerator, afterNumerator) =>
          match _hd : braceGroup? afterNumerator with
          | none =>
              let inner : Fractions := match depth with
                | 0 => .empty
                | depth + 1 => ofText depth numerator
              inner.around.beside (ofText depth afterNumerator)
          | some (denominator, rest) =>
              let inner : Fractions := match depth with
                | 0 => .empty
                | depth + 1 => (ofText depth numerator).beside (ofText depth denominator)
              inner.around.beside (ofText depth rest)
termination_by text.length
decreasing_by
  all_goals
    have := length_afterFraction? _hc
    try have := length_braceGroup? _hn
    try have := length_braceGroup? _hd
    omega

end ExactAlgebra.Profile
