import Sketchwright.Proofs.Spelling
import Sketchwright.Token.Lexer

/-! What the lexer makes sure of. Names and literals are lexemes, and tokens that are neither
comments nor blank lines come in the order of their lines: only comments and blank lines are held
back until the indentation of the next line of code is known. -/

namespace Sketchwright

open Token

theorem Position.line_le_next (p : Position) (c : Char) : p.line ≤ (p.next c).line := by
  unfold Position.next
  split
  · exact Nat.le_succ _
  · exact Nat.le_refl _

theorem Position.line_le_advance (p : Position) (cs : List Char) :
    p.line ≤ (p.advance cs).line := by
  induction cs generalizing p with
  | nil => exact Nat.le_refl _
  | cons c cs ih => exact Nat.le_trans (p.line_le_next c) (ih _)

namespace Token

theorem leadOf_line (p : Position) (cs : List Char) : p.line ≤ (leadOf p cs).position.line := by
  fun_induction leadOf p cs with
  | case1 => exact Nat.le_refl _
  | case2 p cs c after h q _ ih =>
    exact Nat.le_trans (p.line_le_advance _) (Nat.le_trans (q.line_le_next c) ih)
  | case3 p cs c after h q _ _ text stop lineEnd lead ih =>
    have hstop := Nat.le_trans (p.line_le_advance _) (q.line_le_advance text)
    exact Nat.le_trans hstop (Nat.le_trans (stop.line_le_advance lineEnd) ih)
  | case4 => exact Nat.le_refl _

theorem leadOf_trivia (p : Position) (cs : List Char) :
    ∀ t ∈ (leadOf p cs).trivia, t.kind.isTrivia = true := by
  fun_induction leadOf p cs with
  | case1 => exact List.forall_mem_nil _
  | case2 p cs c after h q _ ih => exact List.forall_mem_cons.mpr ⟨rfl, ih⟩
  | case3 p cs c after h q _ _ text stop lineEnd lead ih => exact List.forall_mem_cons.mpr ⟨rfl, ih⟩
  | case4 => exact List.forall_mem_nil _

/-- A token for layout, or a comment or blank line: it has no text that an expression could take
over. -/
def isLayout (kind : TokenKind) : Bool :=
  match kind with
  | .comment _ | .blankLine | .newline | .indent | .dedent | .eof => true
  | _ => false

theorem spelled_of_isLayout {kind : TokenKind} (h : isLayout kind = true) : kind.Spelled := by
  cases kind <;> first | exact trivial | cases h

theorem isLayout_of_isTrivia {kind : TokenKind} (h : kind.isTrivia = true) :
    isLayout kind = true := by
  cases kind <;> first | rfl | cases h

/-- What a lexer still has to deliver: tokens that are due come first, and from line `bound` on all
further ones but comments and blank lines are in order. -/
structure Lexer.Steady (bound : Nat) (lx : Lexer) : Prop where
  spelled : AllSpelled lx.pending
  ordered : Ordered lx.pending
  lower : ∀ t ∈ lx.pending, t.kind.isTrivia = false → bound ≤ t.line
  upper : ∀ t ∈ lx.pending, t.kind.isTrivia = false → t.line ≤ lx.position.line
  reached : bound ≤ lx.position.line

namespace Lexer

variable {lx : Lexer} {bound : Nat}

/-- Nothing is due in a place that is reached. -/
theorem steady_of_nil (hreached : bound ≤ lx.position.line) (hpending : lx.pending = []) :
    Steady bound lx := by
  have hnone : ∀ t, t ∉ lx.pending := fun t ht => by
    rw [hpending] at ht
    cases ht
  refine ⟨fun t ht => absurd ht (hnone t), ?_, fun t ht => absurd ht (hnone t),
    fun t ht => absurd ht (hnone t), hreached⟩
  rw [Ordered, hpending]
  exact .nil

/-- Layout tokens at the place that is reached may be due before comments and blank lines. -/
theorem steady_of_pending {tokens trivia : List Token} (hreached : bound ≤ lx.position.line)
    (htokens : ∀ t ∈ tokens, isLayout t.kind = true ∧ t.line = lx.position.line)
    (htrivia : ∀ t ∈ trivia, t.kind.isTrivia = true) (hpending : lx.pending = tokens ++ trivia) :
    Steady bound lx := by
  have hline : ∀ t ∈ lx.pending, t.kind.isTrivia = false → t.line = lx.position.line := by
    intro t ht hcode
    rw [hpending] at ht
    rcases List.mem_append.mp ht with ht | ht
    · exact (htokens t ht).2
    · rw [htrivia t ht] at hcode
      cases hcode
  refine ⟨fun t ht => ?_, ?_, fun t ht hcode => ?_, fun t ht hcode => ?_, hreached⟩
  · rw [hpending] at ht
    rcases List.mem_append.mp ht with ht | ht
    · exact spelled_of_isLayout (htokens t ht).1
    · exact spelled_of_isLayout (isLayout_of_isTrivia (htrivia t ht))
  · refine List.pairwise_of_forall_mem_list fun a ha b hb => ?_
    obtain ⟨ha, ha'⟩ := List.mem_filter.mp ha
    obtain ⟨hb, hb'⟩ := List.mem_filter.mp hb
    exact Nat.le_of_eq ((hline a ha (by simpa using ha')).trans
      (hline b hb (by simpa using hb')).symm)
  · rw [hline t ht hcode]
    exact hreached
  · exact Nat.le_of_eq (hline t ht hcode)

theorem steady_finish {trivia : List Token} (hreached : bound ≤ lx.position.line)
    (htrivia : ∀ t ∈ trivia, t.kind.isTrivia = true) : Steady bound (lx.finish [] trivia) := by
  refine steady_of_pending hreached (fun t ht => ?_) htrivia rfl
  simp only [List.nil_append, List.mem_map] at ht
  obtain ⟨_, _, rfl⟩ := ht
  exact ⟨rfl, rfl⟩

theorem layout_isLayout (width : Nat) (widths : List Nat) :
    ∀ kind ∈ (layout width widths).2, isLayout kind = true := by
  have hclosed : ∀ kind ∈ (widths.takeWhile (width < ·)).map fun _ => TokenKind.dedent,
      isLayout kind = true := by
    intro kind hkind
    obtain ⟨_, _, rfl⟩ := List.mem_map.mp hkind
    rfl
  unfold layout
  dsimp only
  split
  · exact List.forall_mem_append.mpr ⟨hclosed, List.forall_mem_singleton.mpr rfl⟩
  · exact hclosed

theorem steady_openLine (h : Steady bound lx) : Steady bound lx.openLine := by
  have hlead := leadOf_line lx.position lx.rest
  have htrivia := leadOf_trivia lx.position lx.rest
  have hreached : bound ≤ ((leadOf lx.position lx.rest).position.advance
      (indentation (leadOf lx.position lx.rest).rest)).line :=
    Nat.le_trans h.reached (Nat.le_trans hlead (Position.line_le_advance _ _))
  unfold openLine
  dsimp only
  split
  · exact steady_finish hreached htrivia
  · refine steady_of_pending hreached (fun t ht => ?_) htrivia rfl
    obtain ⟨kind, hkind, rfl⟩ := List.mem_map.mp ht
    exact ⟨layout_isLayout _ _ kind hkind, rfl⟩

theorem steady_settle (h : Steady bound lx) : Steady bound lx.settle := by
  unfold settle
  split
  · exact steady_openLine h
  · exact h

/-- Taking the first token that is due leaves the rest in order. -/
theorem Steady.deliver {t : Token} {ts : List Token} (h : Steady bound lx)
    (hpending : lx.pending = t :: ts) : t.kind.Spelled ∧ ∃ line, bound ≤ line ∧
      Steady line { lx with pending := ts } ∧
        (t.kind.isTrivia = false → bound ≤ t.line ∧ t.line ≤ line) := by
  obtain ⟨hspelled, hordered, hlower, hupper, hreached⟩ := h
  rw [hpending] at hspelled hordered hlower hupper
  obtain ⟨ht, hts⟩ := List.forall_mem_cons.mp hspelled
  have hrest := hordered.sublist (List.sublist_cons_self t ts)
  cases htrivia : t.kind.isTrivia with
  | true =>
    exact ⟨ht, bound, Nat.le_refl _, ⟨hts, hrest, fun u hu => hlower u (List.mem_cons_of_mem _ hu),
      fun u hu => hupper u (List.mem_cons_of_mem _ hu), hreached⟩, fun h => (nomatch h)⟩
  | false =>
    have hle := hlower t List.mem_cons_self htrivia
    refine ⟨ht, t.line, hle, ⟨hts, hrest, fun u hu hcode => ?_,
      fun u hu => hupper u (List.mem_cons_of_mem _ hu), hupper t List.mem_cons_self htrivia⟩,
      fun _ => ⟨hle, Nat.le_refl _⟩⟩
    exact hordered.head htrivia (List.mem_cons_of_mem _ hu) hcode

theorem line_le_consume (lx : Lexer) (text : List Char) :
    lx.position.line ≤ (lx.consume text).position.line := Position.line_le_advance _ _

theorem scan_steady (hreached : bound ≤ lx.position.line) (hpending : lx.pending = []) {t : Token}
    {after : Lexer} (hscan : lx.scan = (.ok t, after)) : t.kind.Spelled ∧ bound ≤ t.line ∧
      Steady t.line after := by
  have hgap := line_le_consume lx (gap (0 < lx.nesting) false lx.rest)
  have hpending' : (lx.consume (gap (0 < lx.nesting) false lx.rest)).pending = [] := hpending
  unfold scan at hscan
  generalize lx.consume (gap (0 < lx.nesting) false lx.rest) = lx' at hgap hpending' hscan
  have hreached' := Nat.le_trans hreached hgap
  dsimp only at hscan
  split at hscan
  · cases hscan
    exact ⟨trivial, hreached', steady_finish (Nat.le_refl _) fun _ h => (nomatch h)⟩
  · next c cs _ =>
    split at hscan
    · next kind hkind =>
      cases hscan
      refine ⟨?_, hreached', steady_of_nil (line_le_consume lx' _) hpending'⟩
      have hlexeme : ∃ c cs, (Lexeme.read c cs).kind = .ok kind := ⟨c, cs, hkind⟩
      cases kind <;> first | exact hlexeme | exact trivial
    · cases hscan

/-- One call delivers a token in its place, and the rest stays in order. -/
theorem next_steady (h : Steady bound lx) {t : Token} {after : Lexer}
    (hnext : lx.next = (.ok t, after)) : t.kind.Spelled ∧ ∃ line, bound ≤ line ∧
      Steady line after ∧ (t.kind.isTrivia = false → bound ≤ t.line ∧ t.line ≤ line) := by
  replace h := steady_settle h
  unfold next at hnext
  generalize lx.settle = lx at h hnext
  dsimp only at hnext
  split at hnext
  · next hpending =>
    cases hnext
    exact h.deliver hpending
  · next hpending =>
    split at hnext
    · cases hnext
      exact ⟨trivial, _, h.reached, steady_of_nil (Nat.le_refl _) hpending,
        fun _ => ⟨h.reached, Nat.le_refl _⟩⟩
    · obtain ⟨hspelled, hle, hafter⟩ := scan_steady h.reached hpending hnext
      exact ⟨hspelled, t.line, hle, hafter, fun _ => ⟨hle, Nat.le_refl _⟩⟩

/-- All tokens of a run, in the order of their lines. -/
theorem run_steady (lx : Lexer) {bound : Nat} (h : Steady bound lx) {ts : List Token}
    (hrun : lx.run.1 = .ok ts) : AllSpelled ts ∧ Ordered ts ∧
      ∀ t ∈ ts, t.kind.isTrivia = false → bound ≤ t.line := by
  fun_induction run lx generalizing bound ts with
  | case1 lx e after hnext => cases hrun
  | case2 lx t after hnext heof =>
    obtain ⟨hspelled, line, hle, _, hline⟩ := next_steady h hnext
    cases hrun
    refine ⟨List.forall_mem_singleton.mpr hspelled, ?_,
      List.forall_mem_singleton.mpr fun hcode => (hline hcode).1⟩
    exact (List.pairwise_singleton _ t).sublist List.filter_sublist
  | case3 lx t after hnext heof more =>
    rename_i ih
    obtain ⟨hspelled, line, hle, hsteady, hline⟩ := next_steady h hnext
    dsimp only [more] at hrun
    cases hmore : after.run.1 with
    | error e =>
      rw [hmore] at hrun
      cases hrun
    | ok us =>
      rw [hmore] at hrun
      cases hrun
      obtain ⟨hspelled', hordered, hlines⟩ := ih hsteady hmore
      refine ⟨List.forall_mem_cons.mpr ⟨hspelled, hspelled'⟩, ?_, List.forall_mem_cons.mpr
        ⟨fun hcode => (hline hcode).1, fun u hu hcode => Nat.le_trans hle (hlines u hu hcode)⟩⟩
      cases htrivia : t.kind.isTrivia with
      | true => rwa [Ordered, List.filter_cons_of_neg (by simp [htrivia])]
      | false =>
        rw [Ordered, List.filter_cons_of_pos (by simp [htrivia])]
        refine List.pairwise_cons.mpr ⟨fun u hu => ?_, hordered⟩
        obtain ⟨hu, hcode⟩ := List.mem_filter.mp hu
        exact Nat.le_trans (hline htrivia).2 (hlines u hu (by simpa using hcode))

/-- A call that delivers no token leaves nothing that is due. -/
theorem next_flawed {e : LexError} {after : Lexer} (hnext : lx.next = (.error e, after)) :
    after.pending = [] := by
  rcases lx.next_cases with ⟨t, ts, _, heq⟩ | ⟨_, _, heq⟩ | ⟨hpending, _, heq⟩
  · cases heq.symm.trans hnext
  · cases heq.symm.trans hnext
  · rw [heq] at hnext
    unfold scan at hnext
    dsimp only at hnext
    split at hnext
    · cases hnext
    · split at hnext
      · cases hnext
      · cases hnext
        exact hpending

/-- Tokens that calls deliver, flaws between them or not, are spelled as lexemes. -/
theorem steps_spelled (h : Steady bound lx) {count : Nat} {t : Token}
    (ht : .ok t ∈ lx.steps count) :
    t.kind.Spelled := by
  induction count generalizing lx bound with
  | zero => cases ht
  | succ count ih =>
    cases hnext : lx.next with
    | mk result after =>
      rw [steps, hnext] at ht
      cases result with
      | error e =>
        exact ih (steady_of_nil (Nat.zero_le _) (next_flawed hnext))
          ((List.mem_cons.mp ht).resolve_left nofun)
      | ok u =>
        obtain ⟨hspelled, line, -, hafter, -⟩ := next_steady h hnext
        rcases List.mem_cons.mp ht with heq | ht
        · cases heq
          exact hspelled
        · exact ih hafter ht

end Lexer

theorem tokenize_steady {source : String} {ts : List Token} (h : tokenize source = .ok ts) :
    AllSpelled ts ∧ Ordered ts := by
  have hreached : 0 ≤ (Lexer.start source.toList).position.line := Nat.zero_le _
  obtain ⟨hspelled, hordered, _⟩ := Lexer.run_steady _ (Lexer.steady_of_nil hreached rfl) h
  exact ⟨hspelled, hordered⟩

theorem spelled_of_mem_steps {source : String} {count : Nat} {t : Token}
    (ht : .ok t ∈ (Lexer.start source.toList).steps count) : t.kind.Spelled :=
  Lexer.steps_spelled (Lexer.steady_of_nil (Nat.zero_le _) rfl) ht

end Token

end Sketchwright
