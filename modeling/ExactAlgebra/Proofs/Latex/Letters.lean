import ExactAlgebra.Proofs.Latex.Lexemes
import ExactAlgebra.Proofs.Latex.Parsing

/-!
# Variables of parsed expressions

Every variable of an expression that a text is parsed to is a single ASCII letter.
-/

namespace ExactAlgebra

/-- The name is one ASCII letter. -/
def IsLetter (name : String) : Prop := ∃ c : Char, c.isAlpha ∧ name = String.singleton c

theorem any_isAlpha_iff {name : String} :
    (name.toList.any fun c => c.isAlpha && name == String.singleton c) ↔ IsLetter name := by
  rw [List.any_eq_true]
  constructor
  · rintro ⟨c, _, h⟩
    simp only [Bool.and_eq_true, beq_iff_eq] at h
    exact ⟨c, h⟩
  · rintro ⟨c, hc, rfl⟩
    exact ⟨c, by simp, by simp [hc]⟩

instance : DecidablePred IsLetter := fun _ => decidable_of_iff _ any_isAlpha_iff

namespace Latex

/-! ## Tokens -/

/-- The token is no letter, or an ASCII one. -/
def Token.isAscii : Token → Bool
  | letter c => c.isAlpha
  | _ => true

theorem isAscii_of_characterToken {c : Char} {t : Token} (h : characterToken? c = some t) : t.isAscii := by
  unfold characterToken? at h
  split at h <;> first
    | (cases h; rfl)
    | (obtain ⟨hc, rfl⟩ : c.isAlpha ∧ .letter c = t := by simpa using h
       exact hc)

theorem isAscii_of_commandToken {name : List Char} {token : Option Token} (h : commandToken? name = some token) :
    ∀ t ∈ token.toList, t.isAscii := by
  unfold commandToken? at h
  split at h <;> cases h <;> simp [Token.isAscii]

theorem Lexes.isAscii {cs : List Char} {us : List Token} (h : Lexes cs us) : ∀ t ∈ us, t.isAscii := by
  induction h with
  | nil => nofun
  | blank _ _ ih | spacing _ _ ih => exact ih
  | command _ htoken _ ih => exact List.forall_mem_append.2 ⟨isAscii_of_commandToken htoken, ih⟩
  | number _ _ ih => exact List.forall_mem_cons.2 ⟨rfl, ih⟩
  | character hc _ ih => exact List.forall_mem_cons.2 ⟨isAscii_of_characterToken hc, ih⟩

/-! ## Expressions -/

/-- The variables of the expression that a sum or a product goes on from. -/
def Nonterminal.names : Nonterminal → List String
  | summands left | factors left => left.names
  | _ => []

theorem FractionValue.names_subset {ns ds : List Token} {a b e : Expr} (h : FractionValue ns a ds b e) :
    e.names ⊆ a.names ++ b.names := by
  cases h with
  | F_Number => exact List.nil_subset _
  | F_Denominator | F_Quotient => exact List.Subset.refl _

/-- Every variable of an expression is a letter of its tokens. -/
theorem Derives.isLetter {d : Nat} {nt : Nonterminal} {us next : List Token} {e : Expr}
    (h : Derives d nt us next e) (hus : ∀ t ∈ us, t.isAscii) (hnt : ∀ name ∈ nt.names, IsLetter name) :
    ∀ name ∈ e.names, IsLetter name := by
  induction h with
  | S_First _ _ iha ihe | T_First _ _ iha ihe =>
      have ⟨hts, hus⟩ := List.forall_mem_append.1 hus
      exact ihe hus (iha hts nofun)
  | S_End | T_End => exact hnt
  | S_Plus _ _ ihb ihe | S_Minus _ _ ihb ihe | T_Times _ _ ihb ihe | T_Divide _ _ ihb ihe =>
      have ⟨hts, hus⟩ := List.forall_mem_append.1 (List.forall_mem_cons.1 hus).2
      exact ihe hus (List.forall_mem_append.2 ⟨hnt, ihb hts nofun⟩)
  | T_Beside _ _ _ ihb ihe =>
      have ⟨hts, hus⟩ := List.forall_mem_append.1 (List.cons_append ▸ hus)
      exact ihe hus (List.forall_mem_append.2 ⟨hnt, ihb hts nofun⟩)
  | U_Minus _ iha | U_Plus _ iha => exact iha (List.forall_mem_cons.1 hus).2 nofun
  | U_Power _ iha | P_Atom _ iha => exact iha hus nofun
  | P_Raised _ _ iha => exact iha (List.forall_mem_append.1 hus).1 nofun
  | A_Number | A_Mixed => nofun
  | A_Letter =>
      intro name hname
      obtain rfl := List.mem_singleton.1 hname
      exact ⟨_, hus _ List.mem_cons_self, rfl⟩
  | A_Paren _ iha | A_Brace _ iha =>
      exact iha (List.forall_mem_append.1 (List.forall_mem_cons.1 hus).2).1 nofun
  | A_Frac _ _ hv iha ihb =>
      have ⟨hns, hus⟩ := List.forall_mem_append.1 (List.forall_mem_cons.1 (List.forall_mem_cons.1 hus).2).2
      have ⟨hds, _⟩ := List.forall_mem_append.1 (List.forall_mem_cons.1 (List.forall_mem_cons.1 hus).2).2
      intro name hname
      exact List.forall_mem_append.2 ⟨iha hns nofun, ihb hds nofun⟩ name (hv.names_subset hname)
  | A_Sqrt _ iha =>
      exact iha (List.forall_mem_append.1 (List.forall_mem_cons.1 (List.forall_mem_cons.1 hus).2).2).1 nofun

/-- All variables of a parsed expression are letters. -/
theorem isLetter_of_parse {limit : Nat} {text : List Char} {e : Expr} (h : parse limit text = .ok e) :
    ∀ name ∈ e.names, IsLetter name := by
  obtain ⟨ts, d, hts, _, hderives⟩ := parse_eq_ok_iff.1 h
  exact hderives.isLetter (lexes_of_scan hts).isAscii nofun

end Latex

end ExactAlgebra
