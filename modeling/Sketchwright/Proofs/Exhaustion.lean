import Sketchwright.Proofs.Tiling

/-! The lexer comes to an end. Called again and again, errors or not, it gives the end token after a
number of calls that the length of the text bounds, and gives it from then on in the same place. A
call that neither takes its token from the queue nor gives the end token goes over some text. -/

namespace Sketchwright.Token

open Text

/-- From one lexer to the other the text that is between them is gone over. -/
structure Lexer.Passes (lx : Lexer) (text : List Char) (after : Lexer) : Prop where
  rest : lx.rest = text ++ after.rest
  position : after.position = lx.position.advance text

/-- The comment and blank lines before a line of code are text that is gone over. -/
theorem leadOf_passes (p : Position) (cs : List Char) :
    ∃ text, cs = text ++ (leadOf p cs).rest ∧ (leadOf p cs).position = p.advance text := by
  fun_induction leadOf p cs with
  | case1 p cs => exact ⟨[], rfl, rfl⟩
  | case2 p cs c after h q _ ih =>
    obtain ⟨text, hafter, hposition⟩ := ih
    have hblanks := prefix_append_drop (List.takeWhile_prefix isSpace (l := cs))
    refine ⟨indentation cs ++ c :: text, ?_, ?_⟩
    · rw [List.append_assoc, List.cons_append]
      exact (hafter ▸ h ▸ hblanks).symm
    · rw [Position.advance_append, Position.advance_cons]
      exact hposition
  | case3 p cs c after h q _ _ line stop lineEnd lead ih =>
    obtain ⟨text, hafter, hposition⟩ := ih
    have hblanks := prefix_append_drop (List.takeWhile_prefix isSpace (l := cs))
    have hline : Lexeme.restOfLine after ++ after.drop (Lexeme.restOfLine after).length = after :=
      prefix_append_drop (List.takeWhile_prefix _)
    have hend : lineEnd ++ after.drop ((Lexeme.restOfLine after).length + 1) =
        after.drop (Lexeme.restOfLine after).length := by
      rw [← List.drop_drop]
      exact List.take_append_drop 1 _
    refine ⟨indentation cs ++ (line ++ (lineEnd ++ text)), ?_, ?_⟩
    · calc cs = indentation cs ++ c :: after := (h ▸ hblanks).symm
        _ = indentation cs ++ (line ++
          (lineEnd ++ after.drop ((Lexeme.restOfLine after).length + 1))) := by
          rw [hend, List.cons_append, hline]
        _ = _ := by
          rw [hafter]
          simp [Lead.push, lead]
    · rw [Position.advance_append, Position.advance_append, Position.advance_append]
      exact hposition
  | case4 p cs => exact ⟨[], rfl, rfl⟩

namespace Lexer

variable {lx after last : Lexer} {text more : List Char}

theorem Passes.refl (lx : Lexer) : lx.Passes [] lx := ⟨rfl, rfl⟩

theorem Passes.trans (h : lx.Passes text after) (hmore : after.Passes more last) :
    lx.Passes (text ++ more) last := by
  constructor
  · rw [h.rest, hmore.rest, List.append_assoc]
  · rw [hmore.position, h.position, Position.advance_append]

theorem passes_consume (h : text <+: lx.rest) : lx.Passes text (lx.consume text) :=
  ⟨(prefix_append_drop h).symm, rfl⟩

theorem openLine_passes (lx : Lexer) : ∃ text, lx.Passes text lx.openLine := by
  obtain ⟨text, hrest, hposition⟩ := leadOf_passes lx.position lx.rest
  have hlead : lx.Passes text { lx with
      rest := (leadOf lx.position lx.rest).rest, position := (leadOf lx.position lx.rest).position,
      atLineStart := false } := ⟨hrest, hposition⟩
  have hblanks : indentation (leadOf lx.position lx.rest).rest <+:
      (leadOf lx.position lx.rest).rest :=
    List.takeWhile_prefix _
  obtain ⟨hall, hplace⟩ := hlead.trans (passes_consume hblanks)
  refine ⟨text ++ indentation (leadOf lx.position lx.rest).rest, ?_⟩
  unfold openLine
  dsimp only
  split
  · exact ⟨hall, hplace⟩
  · exact ⟨hall, hplace⟩

theorem settle_passes (lx : Lexer) : ∃ text, lx.Passes text lx.settle := by
  unfold settle
  split
  · exact openLine_passes lx
  · exact ⟨[], .refl lx⟩

/-- The lexer past the blanks before a token. -/
def skip (lx : Lexer) : Lexer := lx.consume (gap (0 < lx.nesting) false lx.rest)

theorem gap_isPrefix (inBrackets inComment : Bool) (cs : List Char) :
    gap inBrackets inComment cs <+: cs := by
  fun_induction gap inBrackets inComment cs with
  | case1 c cs ih => exact (List.prefix_cons_inj c).mpr ih
  | case2 cs ih => exact (List.prefix_cons_inj _).mpr ((List.prefix_cons_inj _).mpr ih)
  | case3 c cs _ _ ih => exact (List.prefix_cons_inj c).mpr ih
  | case4 c cs _ _ _ ih => exact (List.prefix_cons_inj c).mpr ih
  | case5 => exact List.nil_prefix
  | case6 => exact List.nil_prefix

theorem skip_passes (lx : Lexer) : ∃ text, lx.Passes text lx.skip :=
  ⟨_, passes_consume (gap_isPrefix ..)⟩

/-- A lexer that reads on in a line goes over some text, unless only blanks are left of it. -/
theorem scan_passes (lx : Lexer) :
    ∃ text, lx.Passes text lx.scan.2 ∧ (lx.skip.rest ≠ [] → text ≠ []) := by
  obtain ⟨blanks, hblanks⟩ := skip_passes lx
  unfold scan
  dsimp only
  split
  · next h => exact ⟨blanks, ⟨hblanks.rest, hblanks.position⟩, fun hne => absurd h hne⟩
  · next c cs h =>
    have hlexeme : (Lexeme.read c cs).text <+: lx.skip.rest := h ▸ Lexeme.read_text_isPrefix c cs
    obtain ⟨hrest, hposition⟩ := hblanks.trans (passes_consume hlexeme)
    have hne : blanks ++ (Lexeme.read c cs).text ≠ [] :=
      List.append_ne_nil_of_right_ne_nil _ (Lexeme.read_text_ne_nil c cs)
    refine ⟨blanks ++ (Lexeme.read c cs).text, ?_, fun _ => hne⟩
    split
    · exact ⟨hrest, hposition⟩
    · exact ⟨hrest, hposition⟩

/-- The text ends in the line that the lexer is in. -/
def EndsInLine (lx : Lexer) : Prop := lx.pending = [] ∧ lx.finished = false ∧ lx.skip.rest = []

instance (lx : Lexer) : Decidable lx.EndsInLine :=
  inferInstanceAs (Decidable (lx.pending = [] ∧ lx.finished = false ∧ lx.skip.rest = []))

/-- The lexer with what its next call has in the queue: the tokens before a line of code, or, where
the text ends in a line, the end of that line and of the open blocks. -/
def enqueue (lx : Lexer) : Lexer :=
  if lx.settle.EndsInLine then lx.settle.skip.finish [⟨.newline, lx.settle.skip.position.mark⟩] []
  else lx.settle

/-- The next call takes its token from the queue. -/
def dequeues (lx : Lexer) : Bool := !lx.enqueue.pending.isEmpty

theorem scan_of_endsInLine (h : lx.EndsInLine) :
    lx.scan = (.ok ⟨.newline, lx.skip.position.mark⟩, lx.skip.finish [] []) := by
  obtain ⟨-, -, hrest⟩ := h
  unfold scan
  unfold skip at hrest ⊢
  simp only [hrest]

/-- A call takes a token from the queue, or else gives the end token, or else
reads on in the line. -/
theorem next_eq_enqueue (lx : Lexer) : lx.next = match lx.enqueue.pending with
    | t :: ts => (.ok t, { lx.enqueue with pending := ts })
    | [] => if lx.enqueue.finished then (.ok ⟨.eof, lx.enqueue.position.mark⟩, lx.enqueue)
      else lx.enqueue.scan := by
  by_cases hend : lx.settle.EndsInLine
  · have hqueue : lx.enqueue =
        lx.settle.skip.finish [⟨.newline, lx.settle.skip.position.mark⟩] [] := if_pos hend
    rw [hqueue, next]
    simp [hend.1, hend.2.1, scan_of_endsInLine hend, finish]
  · have hqueue : lx.enqueue = lx.settle := if_neg hend
    rw [hqueue]
    rfl

/-- Where a call reads on, the text has not ended. -/
theorem skip_ne_nil_of_enqueue (hpending : lx.enqueue.pending = [])
    (hopen : lx.enqueue.finished = false) :
    lx.enqueue.skip.rest ≠ [] := by
  unfold enqueue at hpending hopen ⊢
  split at hpending
  · simp [finish] at hpending
  · next hend =>
    rw [if_neg hend] at hopen ⊢
    exact fun hrest => hend ⟨hpending, hopen, hrest⟩

theorem enqueue_passes (lx : Lexer) : ∃ text, lx.Passes text lx.enqueue := by
  obtain ⟨text, hsettled⟩ := settle_passes lx
  unfold enqueue
  split
  · obtain ⟨blanks, hblanks⟩ := skip_passes lx.settle
    obtain ⟨hrest, hposition⟩ := hsettled.trans hblanks
    exact ⟨text ++ blanks, hrest, hposition⟩
  · exact ⟨text, hsettled⟩

/-- A call goes over some text if it reads on in the line. -/
theorem next_passes (lx : Lexer) : ∃ text, lx.Passes text lx.next.2 ∧
    ((∀ t, lx.next.1 = .ok t → t.kind ≠ .eof ∧ lx.dequeues = false) → text ≠ []) := by
  obtain ⟨text, hqueue⟩ := enqueue_passes lx
  rw [next_eq_enqueue]
  split
  · next t ts hpending =>
    have hdue : lx.dequeues = true := by simp [dequeues, hpending]
    exact ⟨text, ⟨hqueue.rest, hqueue.position⟩,
      fun h => absurd hdue (Bool.eq_false_iff.mp (h t rfl).2)⟩
  · next hpending =>
    split
    · exact ⟨text, hqueue, fun h => absurd rfl (h _ rfl).1⟩
    · next hopen =>
      obtain ⟨more, hmore, hne⟩ := scan_passes lx.enqueue
      have hrest := skip_ne_nil_of_enqueue hpending (Bool.eq_false_iff.mpr hopen)
      exact ⟨text ++ more, hqueue.trans hmore,
        fun _ => List.append_ne_nil_of_right_ne_nil _ (hne hrest)⟩

/-- No end token is due, and where the text is finished nothing is left of it. -/
structure Orderly (lx : Lexer) : Prop where
  pending : ∀ t ∈ lx.pending, t.kind ≠ .eof
  finished : lx.finished = true → lx.rest = []

theorem orderly_start (source : List Char) : (start source).Orderly :=
  ⟨List.forall_mem_nil _, fun h => absurd h Bool.false_ne_true⟩

theorem ne_eof_of_isTrivia {kind : TokenKind} (h : kind.isTrivia = true) : kind ≠ .eof := by
  rintro rfl
  cases h

theorem orderly_openLine (hopen : lx.finished = false) : lx.openLine.Orderly := by
  have htrivia : ∀ t ∈ (leadOf lx.position lx.rest).trivia, t.kind ≠ .eof :=
    fun t ht => ne_eof_of_isTrivia (leadOf_trivia lx.position lx.rest t ht)
  unfold openLine
  dsimp only
  split
  · next hrest =>
    refine ⟨?_, fun _ => hrest⟩
    simp only [finish, List.nil_append, List.forall_mem_append, List.forall_mem_map]
    exact ⟨by simp, htrivia⟩
  · refine ⟨?_, fun hfinished => absurd hfinished (Bool.eq_false_iff.mp hopen)⟩
    simp only [List.forall_mem_append, List.forall_mem_map]
    refine ⟨fun kind hkind => ?_, htrivia⟩
    rcases layout_marksBlock _ _ kind hkind with rfl | rfl <;> simp

theorem Orderly.settle (h : lx.Orderly) : lx.settle.Orderly := by
  unfold Lexer.settle
  split
  · next hline =>
    simp only [Bool.and_eq_true, Bool.not_eq_true'] at hline
    exact orderly_openLine hline.1.2
  · exact h

/-- A finished lexer has nothing more to settle. -/
theorem settle_of_finished (h : lx.finished = true) : lx.settle = lx := by
  simp [Lexer.settle, h]

theorem ne_eof_of_read {c : Char} {cs : List Char} {kind : TokenKind}
    (h : (Lexeme.read c cs).kind = .ok kind) :
    kind ≠ .eof := by
  rintro rfl
  have hdenotes : Denotes (Lexeme.read c cs).text [] .eof := read_denotes h
  exact Lexeme.read_text_ne_nil c cs hdenotes.1

/-- What is read in a line is not the end token. -/
theorem Orderly.scan (h : lx.Orderly) (hopen : lx.finished = false) :
    lx.scan.2.Orderly ∧ ∀ t, lx.scan.1 = .ok t → t.kind ≠ .eof := by
  unfold Lexer.scan
  dsimp only
  split
  · next hrest =>
    refine ⟨⟨?_, fun _ => hrest⟩, ?_⟩
    · simp [Lexer.finish]
    · rintro _ ⟨⟩
      simp
  · split
    · next kind hkind =>
      refine ⟨⟨h.pending, fun hfinished => absurd hfinished (Bool.eq_false_iff.mp hopen)⟩, ?_⟩
      rintro _ ⟨⟩
      exact ne_eof_of_read hkind
    · refine ⟨⟨h.pending, fun hfinished => absurd hfinished (Bool.eq_false_iff.mp hopen)⟩, ?_⟩
      rintro _ ⟨⟩

/-- A lexer at the end of its text, where every call gives the same end token. -/
structure Exhausted (lx : Lexer) : Prop where
  next : lx.next = (.ok ⟨.eof, lx.position.mark⟩, lx)
  rest : lx.rest = []

/-- A call leaves the lexer orderly, and exhausted if it gives the end token. -/
theorem Orderly.next (h : lx.Orderly) :
    lx.next.2.Orderly ∧
    ∀ t, lx.next.1 = .ok t → t.kind = .eof →
      lx.next.2.Exhausted ∧ t = ⟨.eof, lx.next.2.position.mark⟩ := by
  have hsettled := h.settle
  obtain ⟨t, ts, hpending, hnext⟩ | ⟨hpending, hfinished, hnext⟩ | ⟨-, hopen, hnext⟩ :=
    lx.next_cases
  · rw [hnext]
    have hdue := hsettled.pending
    rw [hpending] at hdue
    obtain ⟨ht, hts⟩ := List.forall_mem_cons.mp hdue
    refine ⟨⟨hts, hsettled.finished⟩, ?_⟩
    rintro _ ⟨⟩ heof
    exact absurd heof ht
  · rw [hnext]
    have hagain := settle_of_finished hfinished
    have hsame := next_of_finished (hagain.symm ▸ hpending) (hagain.symm ▸ hfinished)
    rw [hagain] at hsame
    refine ⟨hsettled, ?_⟩
    rintro _ ⟨⟩ -
    exact ⟨⟨hsame, hsettled.finished hfinished⟩, rfl⟩
  · rw [hnext]
    obtain ⟨hafter, hkind⟩ := hsettled.scan hopen
    exact ⟨hafter, fun t ht heof => absurd heof (hkind t ht)⟩

/-- The lexer after some calls, whatever they give. -/
def afterCalls (lx : Lexer) : Nat → Lexer
  | 0 => lx
  | count + 1 => lx.next.2.afterCalls count

theorem Exhausted.steps (h : lx.Exhausted) (count : Nat) :
    lx.steps count = List.replicate count (.ok ⟨.eof, lx.position.mark⟩) := by
  induction count with
  | zero => rfl
  | succ count ih => rw [Lexer.steps, h.next, ih, List.replicate_succ]

/-- The results of all calls: those before the end token, no more than the lexer has work left, and
then the end token again and again. -/
theorem Orderly.steps (h : lx.Orderly) :
    ∃ (early : List (Except LexError Token)) (text : List Char) (last : Lexer),
    lx.Passes text last ∧ last.rest = [] ∧ early.length ≤ lx.work ∧
      (∀ r ∈ early, ∀ t, r = .ok t → t.kind ≠ .eof) ∧
    ∀ count, lx.steps count =
      early.take count ++ List.replicate (count - early.length)
        (.ok ⟨.eof, last.position.mark⟩) := by
  induction hwork : lx.work using Nat.strongRecOn generalizing lx with
  | ind work ih =>
    subst hwork
    obtain ⟨hafter, hend⟩ := h.next
    obtain ⟨text, hpasses, -⟩ := next_passes lx
    by_cases heof : ∃ t, lx.next.1 = .ok t ∧ t.kind = .eof
    · obtain ⟨t, ht, hkind⟩ := heof
      obtain ⟨hexhausted, rfl⟩ := hend t ht hkind
      refine ⟨[], text, lx.next.2, hpasses, hexhausted.rest, Nat.zero_le _, List.forall_mem_nil _,
        fun count => ?_⟩
      cases count with
      | zero => rfl
      | succ count =>
        rw [Lexer.steps, ht, hexhausted.steps]
        simp [List.replicate_succ]
    · have hlt := (work_next lx).resolve_right heof
      obtain ⟨early, more, last, hmore, hrest, hlength, hkinds, hsteps⟩ := ih _ hlt hafter rfl
      refine ⟨lx.next.1 :: early, text ++ more, last, hpasses.trans hmore, hrest, ?_, ?_,
        fun count => ?_⟩
      · rw [List.length_cons]
        omega
      · refine List.forall_mem_cons.mpr ⟨fun t ht hkind => heof ⟨t, ht, hkind⟩, hkinds⟩
      · cases count with
        | zero => simp [Lexer.steps]
        | succ count =>
          rw [Lexer.steps, hsteps count]
          simp

theorem afterCalls_succ (count : Nat) (lx : Lexer) :
    lx.afterCalls (count + 1) = (lx.afterCalls count).next.2 := by
  induction count generalizing lx with
  | zero => rfl
  | succ count ih => exact ih lx.next.2

end Lexer

/-- Of the calls on a text some come before the end token, and every further one gives the end
token at the end of the text. A call that gives an error, or a token that was not in the
queue, goes over some text. -/
theorem steps_exhaust (source : String) :
    (∃ early : List (Except LexError Token),
      early.length + 1 ≤ 2 * source.length + 2 ∧ (∀ r ∈ early, ∀ t, r = .ok t → t.kind ≠ .eof) ∧
      ∀ count, (Lexer.start source.toList).steps count = early.take count ++
        List.replicate (count - early.length)
          (.ok ⟨.eof, (Position.start.advance source.toList).mark⟩)) ∧
    ∀ count, ∃ text,
      ((Lexer.start source.toList).afterCalls count).rest =
        text ++ ((Lexer.start source.toList).afterCalls (count + 1)).rest ∧
      ((∀ t, ((Lexer.start source.toList).afterCalls count).next.1 = .ok t → t.kind ≠ .eof ∧
        ((Lexer.start source.toList).afterCalls count).dequeues = false) → text ≠ []) := by
  refine ⟨?_, fun count => ?_⟩
  · obtain ⟨early, text, last, hpasses, hrest, hlength, hkinds, hsteps⟩ :=
      (Lexer.orderly_start source.toList).steps
    have htext : source.toList = text := by
      have := hpasses.rest
      rwa [hrest, List.append_nil] at this
    have hplace : last.position = Position.start.advance source.toList := htext ▸ hpasses.position
    have hwork : (Lexer.start source.toList).work = 2 * source.length + 1 := by
      simp [Lexer.work, Lexer.start, String.length_toList]
    refine ⟨early, ?_, hkinds, fun count => hplace ▸ hsteps count⟩
    omega
  · obtain ⟨text, hpasses, hne⟩ := Lexer.next_passes ((Lexer.start source.toList).afterCalls count)
    rw [Lexer.afterCalls_succ]
    exact ⟨text, hpasses.rest, hne⟩

end Sketchwright.Token
