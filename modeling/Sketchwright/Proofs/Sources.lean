import Mathlib
import Sketchwright.Proofs.Grammar
import Sketchwright.Proofs.Layout
import Sketchwright.Proofs.Outcome
import Sketchwright.Translator

/-! Programs that come from a text: they are well formed, and their expressions are made
of the text's lexemes. -/

namespace Sketchwright.Program

theorem ofTokens_yields {tokens : List Token} {source : String} {p : Program}
    (hspelled : AllSpelled tokens) (hordered : Ordered tokens)
    (h : ofTokens tokens source = .ok p) : p.WellFormed ∧ (∀ e ∈ p.exprs, e.Spelled) ∧
      ∀ id ∈ namesIn p.statements, (TokenKind.identifier id).Spelled := by
  have hbefore : (tokens.takeWhile (!isEnd ·)).Sublist tokens := (List.takeWhile_prefix _).sublist
  unfold ofTokens at h
  dsimp only at h
  split at h
  · next hread =>
    cases h
    exact read_yields (fun t ht => hspelled t (hbefore.subset ht))
      (hordered.sublist hbefore) _ hread
  · cases h

theorem ofSource_yields {source : String} {p : Program} (h : ofSource source = .ok p) :
    p.WellFormed ∧ (∀ e ∈ p.exprs, e.Spelled) ∧
      ∀ id ∈ namesIn p.statements, (TokenKind.identifier id).Spelled := by
  unfold ofSource at h
  split at h
  · next tokens htokens =>
    obtain ⟨hspelled, hordered⟩ := Token.tokenize_steady htokens
    exact ofTokens_yields hspelled hordered h
  · cases h

theorem wellFormed_of_source {source : String} {p : Program} (h : ofSource source = .ok p) :
    p.WellFormed := (ofSource_yields h).1

/-- A text in which a function is called before its definition. -/
def sampleText : String := "def loop(): x = f(1)\ndef f(a): return a\n"

def sampleTokens : List Token := [
  ⟨.keyword .define, ⟨0, 3, 1, 0⟩⟩, ⟨.identifier "loop", ⟨4, 8, 1, 4⟩⟩,
  ⟨.symbol .leftParen, ⟨8, 9, 1, 8⟩⟩, ⟨.symbol .rightParen, ⟨9, 10, 1, 9⟩⟩,
  ⟨.symbol .colon, ⟨10, 11, 1, 10⟩⟩, ⟨.identifier "x", ⟨12, 13, 1, 12⟩⟩,
  ⟨.symbol .equal, ⟨14, 15, 1, 14⟩⟩, ⟨.identifier "f", ⟨16, 17, 1, 16⟩⟩,
  ⟨.symbol .leftParen, ⟨17, 18, 1, 17⟩⟩, ⟨.integer 1, ⟨18, 19, 1, 18⟩⟩,
  ⟨.symbol .rightParen, ⟨19, 20, 1, 19⟩⟩, ⟨.newline, ⟨20, 21, 1, 20⟩⟩,
  ⟨.keyword .define, ⟨21, 24, 2, 0⟩⟩, ⟨.identifier "f", ⟨25, 26, 2, 4⟩⟩,
  ⟨.symbol .leftParen, ⟨26, 27, 2, 5⟩⟩, ⟨.identifier "a", ⟨27, 28, 2, 6⟩⟩,
  ⟨.symbol .rightParen, ⟨28, 29, 2, 7⟩⟩, ⟨.symbol .colon, ⟨29, 30, 2, 8⟩⟩,
  ⟨.keyword .returnValue, ⟨31, 37, 2, 10⟩⟩, ⟨.identifier "a", ⟨38, 39, 2, 17⟩⟩,
  ⟨.newline, ⟨39, 40, 2, 18⟩⟩, ⟨.eof, ⟨40, 40, 3, 0⟩⟩]

def sample : Program where
  header := []
  statements := [
    .function 1 ⟨"loop", [], none, true⟩ none []
      [.assign 1 (.name "x") (.call "f" [.literal (.int 1)]) none .unresolved],
    .function 2 ⟨"f", [⟨"a", none⟩], none, false⟩ none [] [.give 2 (some (.name "a"))]]

theorem ofTokens_sample : ofTokens sampleTokens sampleText = .ok sample := by cbv

theorem ofSource_sample : ofSource sampleText = .ok sample := by
  have htokens : Token.tokenize sampleText = .ok sampleTokens := by decide +kernel
  rw [ofSource, htokens]
  exact ofTokens_sample

theorem exists_infer_sample : ∃ p', (Inference.infer .builtin sample).1 = .ok p' :=
  Outcome.exists_of_isOk (by decide +kernel)

/-- A text with comments, a chain of conditions in a loop, a hoisted name and a global one. -/
def blinkText : String :=
  "# blink\nled = 13\ndef loop():\n    global led\n    for i in range(3):\n" ++
    "        if i < led:\n            on = i\n        elif led > 5:  # enough\n" ++
    "            break\n    delay(on)\n"

def blinkTokens : List Token := [
  ⟨.comment " blink", ⟨0, 7, 1, 0⟩⟩, ⟨.identifier "led", ⟨8, 11, 2, 0⟩⟩,
  ⟨.symbol .equal, ⟨12, 13, 2, 4⟩⟩, ⟨.integer 13, ⟨14, 16, 2, 6⟩⟩, ⟨.newline, ⟨16, 17, 2, 8⟩⟩,
  ⟨.keyword .define, ⟨17, 20, 3, 0⟩⟩, ⟨.identifier "loop", ⟨21, 25, 3, 4⟩⟩,
  ⟨.symbol .leftParen, ⟨25, 26, 3, 8⟩⟩, ⟨.symbol .rightParen, ⟨26, 27, 3, 9⟩⟩,
  ⟨.symbol .colon, ⟨27, 28, 3, 10⟩⟩, ⟨.newline, ⟨28, 29, 3, 11⟩⟩, ⟨.indent, ⟨33, 33, 4, 4⟩⟩,
  ⟨.keyword .global, ⟨33, 39, 4, 4⟩⟩, ⟨.identifier "led", ⟨40, 43, 4, 11⟩⟩,
  ⟨.newline, ⟨43, 44, 4, 14⟩⟩, ⟨.keyword .forLoop, ⟨48, 51, 5, 4⟩⟩,
  ⟨.identifier "i", ⟨52, 53, 5, 8⟩⟩, ⟨.keyword .inRange, ⟨54, 56, 5, 10⟩⟩,
  ⟨.identifier "range", ⟨57, 62, 5, 13⟩⟩, ⟨.symbol .leftParen, ⟨62, 63, 5, 18⟩⟩,
  ⟨.integer 3, ⟨63, 64, 5, 19⟩⟩, ⟨.symbol .rightParen, ⟨64, 65, 5, 20⟩⟩,
  ⟨.symbol .colon, ⟨65, 66, 5, 21⟩⟩, ⟨.newline, ⟨66, 67, 5, 22⟩⟩, ⟨.indent, ⟨75, 75, 6, 8⟩⟩,
  ⟨.keyword .ifBranch, ⟨75, 77, 6, 8⟩⟩, ⟨.identifier "i", ⟨78, 79, 6, 11⟩⟩,
  ⟨.symbol .less, ⟨80, 81, 6, 13⟩⟩, ⟨.identifier "led", ⟨82, 85, 6, 15⟩⟩,
  ⟨.symbol .colon, ⟨85, 86, 6, 18⟩⟩, ⟨.newline, ⟨86, 87, 6, 19⟩⟩, ⟨.indent, ⟨99, 99, 7, 12⟩⟩,
  ⟨.identifier "on", ⟨99, 101, 7, 12⟩⟩, ⟨.symbol .equal, ⟨102, 103, 7, 15⟩⟩,
  ⟨.identifier "i", ⟨104, 105, 7, 17⟩⟩, ⟨.newline, ⟨105, 106, 7, 18⟩⟩, ⟨.dedent, ⟨114, 114, 8, 8⟩⟩,
  ⟨.keyword .elifBranch, ⟨114, 118, 8, 8⟩⟩, ⟨.identifier "led", ⟨119, 122, 8, 13⟩⟩,
  ⟨.symbol .greater, ⟨123, 124, 8, 17⟩⟩, ⟨.integer 5, ⟨125, 126, 8, 19⟩⟩,
  ⟨.symbol .colon, ⟨126, 127, 8, 20⟩⟩, ⟨.comment " enough", ⟨129, 137, 8, 23⟩⟩,
  ⟨.newline, ⟨137, 138, 8, 31⟩⟩, ⟨.indent, ⟨150, 150, 9, 12⟩⟩,
  ⟨.keyword .breakLoop, ⟨150, 155, 9, 12⟩⟩, ⟨.newline, ⟨155, 156, 9, 17⟩⟩,
  ⟨.dedent, ⟨160, 160, 10, 4⟩⟩, ⟨.dedent, ⟨160, 160, 10, 4⟩⟩,
  ⟨.identifier "delay", ⟨160, 165, 10, 4⟩⟩, ⟨.symbol .leftParen, ⟨165, 166, 10, 9⟩⟩,
  ⟨.identifier "on", ⟨166, 168, 10, 10⟩⟩, ⟨.symbol .rightParen, ⟨168, 169, 10, 12⟩⟩,
  ⟨.newline, ⟨169, 170, 10, 13⟩⟩, ⟨.dedent, ⟨170, 170, 11, 0⟩⟩, ⟨.eof, ⟨170, 170, 11, 0⟩⟩]

def blink : Program where
  header := [.comment 1 .line " blink"]
  statements := [
    .assign 2 (.name "led") (.literal (.int 13)) none .unresolved,
    .function 3 ⟨"loop", [], none, true⟩ none [] [
      .global 4 ["led"],
      .loop 5 "i" ⟨none, .literal (.int 3), 1⟩ .unresolved [
        .conditional 6 (.binary (.name "i") .lt (.name "led"))
          [.assign 7 (.name "on") (.name "i") none .unresolved]
          [.conditional 8 (.binary (.name "led") .gt (.literal (.int 5)))
            [.comment 8 .trailing " enough", .stop 9] []]],
      .expr 10 (.call "delay" [.name "on"])]]

theorem ofTokens_blink : ofTokens blinkTokens blinkText = .ok blink := by cbv

theorem ofSource_blink : ofSource blinkText = .ok blink := by
  have htokens : Token.tokenize blinkText = .ok blinkTokens := by decide +kernel
  rw [ofSource, htokens]
  exact ofTokens_blink

theorem exists_infer_blink : ∃ p', (Inference.infer .builtin blink).1 = .ok p' :=
  Outcome.exists_of_isOk (by decide +kernel)

end Sketchwright.Program
