/-
# DewyFront.Config — the limits of lexing and parsing
-/

namespace DewyFront

/-- **`LexerConfig`** — the greatest base that an integer may be written in without quotes. -/
structure LexerConfig where
  maxRadix : Nat
deriving DecidableEq, Repr

/-- Bases up to sixteen are written without quotes. -/
instance : Inhabited LexerConfig := ⟨⟨16⟩⟩

/-- **`ParseConfig`** — how many readings one juxtaposition may have, and the limits of the
lexer. -/
structure ParseConfig where
  maxReadings : Nat
  lexer : LexerConfig
deriving DecidableEq, Repr

/-- Sixty-four readings, and the lexer's own limits. -/
instance : Inhabited ParseConfig := ⟨⟨64, default⟩⟩

end DewyFront
