import ExactAlgebra.Proofs.Latex.Words

/-!
# The layout of a text

A text that has tokens is a row of words with gaps between them: each word writes one token, and its place in the text
is the offset of the token. A text that has none can be read up to a place where no word begins.
-/

namespace ExactAlgebra.Latex

/-- What may stand between words: blanks, spacing commands and sizing commands. -/
inductive Gap : List Char → Prop where
  | nil : Gap []
  | cons {word cs} : Word none word → Gap cs → Gap (word ++ cs)

/-- A token in a text, with the gap before it and the word that writes it. -/
structure Piece where
  gap : List Char
  word : List Char
  token : Token
  isGap : Gap gap
  writes : Word (some token) word

def Piece.text (p : Piece) : List Char := p.gap ++ p.word

/-- The tokens of pieces that begin at `offset`, each at the place of its word. -/
def placed (offset : Nat) : List Piece → Tokens
  | [] => []
  | p :: ps => ⟨p.token, offset + Text.byteLength p.gap⟩ :: placed (offset + Text.byteLength p.text) ps

/-- A text as pieces and a last gap. -/
structure Layout (text : List Char) where
  pieces : List Piece
  last : List Char
  isGap : Gap last
  eq_text : text = pieces.flatMap Piece.text ++ last

def Layout.tokens {text : List Char} (l : Layout text) : Tokens := placed 0 l.pieces

theorem plain_placed (offset : Nat) (ps : List Piece) : plain (placed offset ps) = ps.map Piece.token := by
  induction ps generalizing offset with
  | nil => rfl
  | cons p ps ih => simp [placed, ih]

/-- What is left out before a piece belongs to its gap. -/
def Piece.after (p : Piece) {word : List Char} (h : Word none word) : Piece :=
  { p with gap := word ++ p.gap, isGap := .cons h p.isGap }

/-- A text that is cut to its end has a layout. -/
theorem Cut.layout {offset : Nat} {cs : List Char} {ts : Tokens} (h : Cut [] offset cs ts) :
    ∃ ps last, Gap last ∧ cs = ps.flatMap Piece.text ++ last ∧ placed offset ps = ts := by
  induction h with
  | nil => exact ⟨[], [], .nil, rfl, rfl⟩
  | @word offset t? word cs ts hword hends _ ih =>
      obtain ⟨ps, last, hlast, rfl, rfl⟩ := ih
      cases t? with
      | some t =>
          refine ⟨⟨[], word, t, .nil, hword⟩ :: ps, last, hlast, ?_, ?_⟩
          · simp [Piece.text]
          · simp [placed, Piece.text]
      | none =>
          cases ps with
          | nil => exact ⟨[], word ++ last, .cons hword hlast, rfl, rfl⟩
          | cons p ps =>
              refine ⟨p.after hword :: ps, last, hlast, ?_, ?_⟩
              · simp [Piece.text, Piece.after]
              · simp [placed, Piece.text, Piece.after, Nat.add_assoc]

theorem exists_layout {text : List Char} {ts : Tokens} (h : tokenize text = .ok ts) :
    ∃ l : Layout text, l.tokens = ts := by
  have hscanned := scanned_scan 0 text
  rw [← tokenize, h] at hscanned
  cases hscanned with
  | ok hcut =>
      obtain ⟨ps, last, hlast, htext, hts⟩ := hcut.layout
      exact ⟨⟨ps, last, hlast, htext⟩, hts⟩

theorem tokenize_of_cut {text : List Char} {ts : Tokens} (h : Cut [] 0 text ts) : tokenize text = .ok ts := by
  have hscan := scan_cut h
  rw [List.append_nil, scan] at hscan
  simpa [tokenize] using hscan

/-- A text with tokens is a row of the words that write them, with gaps between. In a text without, the error is at a
place where no word begins, and what comes before has tokens. -/
theorem tokenize_layout (text : List Char) :
    match tokenize text with
    | .ok ts => ∃ l : Layout text, l.tokens = ts
    | .error e => ∃ front rest expected, text = front ++ rest ∧ rest ≠ [] ∧
        e = .unexpected (Text.byteLength front) expected ∧ (∃ ts, tokenize front = .ok ts) ∧ ¬ BeginsWord rest := by
  cases hts : tokenize text with
  | ok ts => exact exists_layout hts
  | error e =>
      have hscanned := scanned_scan 0 text
      rw [← tokenize, hts] at hscanned
      cases hscanned with
      | @error front rest ts expected hcut hne hrest =>
          have hfront := tokenize_of_cut (hcut.shorten List.nil_prefix)
          exact ⟨front, rest, expected, rfl, hne, by rw [Nat.zero_add], ⟨ts, hfront⟩, hrest⟩

end ExactAlgebra.Latex
