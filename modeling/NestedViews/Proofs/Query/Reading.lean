import NestedViews.Proofs.Query.Lexer

namespace NestedViews.Query

def Position.behind (before : List Char) : Position where
  offset := (before.map Char.utf8Size).sum
  line := 1 + before.count '\n'
  column := 1 + (before.rtakeWhile (· ≠ '\n')).length

def Mode.opened? : Mode → Option Position
  | .text => none
  | .quoted _ opened => some opened
  | .lineComment => none
  | .blockComment opened => some opened

/-- What is read next behind a text in a mode, before the rest, and the mode that this leads to. -/
inductive Step (before : List Char) : Mode → List Char → List Char → Mode → Prop
  | openQuote {c rest} : c = '\'' ∨ c = '"' →
      Step before .text [c] rest (.quoted c (.behind before))
  | openLine {rest} : Step before .text ['-', '-'] rest .lineComment
  | openBlock {rest} : Step before .text ['/', '*'] rest (.blockComment (.behind before))
  | mark {rest} : Step before .text ['?'] rest .text
  | pass {c rest} : c ≠ '?' → c ≠ '\'' → c ≠ '"' → (c = '-' → rest.head? ≠ some '-') →
      (c = '/' → rest.head? ≠ some '*') → Step before .text [c] rest .text
  | inQuotes {quote opened c rest} : c ≠ quote →
      Step before (.quoted quote opened) [c] rest (.quoted quote opened)
  | doubledQuote {quote opened rest} :
      Step before (.quoted quote opened) [quote, quote] rest (.quoted quote opened)
  | closeQuote {quote opened rest} : rest.head? ≠ some quote →
      Step before (.quoted quote opened) [quote] rest .text
  | inLine {c rest} : c ≠ '\r' → c ≠ '\n' → Step before .lineComment [c] rest .lineComment
  | closeLine {c rest} : c = '\r' ∨ c = '\n' → Step before .lineComment [] (c :: rest) .text
  | inBlock {opened c rest} : (c = '*' → rest.head? ≠ some '/') →
      Step before (.blockComment opened) [c] rest (.blockComment opened)
  | closeBlock {opened rest} : Step before (.blockComment opened) ['*', '/'] rest .text

/-- Reading a query from its start leads to a mode behind a text, with the rest still to be read. -/
inductive Reads (query : List Char) : Mode → List Char → List Char → Prop
  | start : Reads query .text [] query
  | step {mode mode' before cs rest} : Reads query mode before (cs ++ rest) →
      Step before mode cs rest mode' → Reads query mode' (before ++ cs) rest

variable {query before cs rest : List Char} {c quote : Char} {opened p : Position}
variable {mode mode' : Mode} {found noted : List Position}

namespace Position

theorem behind_concat (before : List Char) (c : Char) :
    behind (before ++ [c]) = (behind before).next c := by
  unfold behind next
  by_cases hc : c = '\n'
  · simp [hc, Nat.add_assoc]
  · simp [hc, Nat.add_assoc]

theorem behind_append (before cs : List Char) :
    behind (before ++ cs) = (behind before).after cs := by
  induction cs generalizing before with
  | nil => rw [List.append_nil, after, List.foldl_nil]
  | cons c cs ih =>
    rw [List.append_cons, ih, behind_concat]
    rfl

theorem offset_behind_append (before cs : List Char) :
    (behind (before ++ cs)).offset = (behind before).offset + (cs.map Char.utf8Size).sum := by
  simp [behind]

end Position

theorem lex_of_inQuotes (hc : c ≠ quote) :
    lex (.quoted quote opened) p (c :: rest) = lex (.quoted quote opened) (p.next c) rest := by
  cases rest <;> simp [lex, hc]

theorem lex_of_closeQuote (hrest : rest.head? ≠ some quote) :
    lex (.quoted quote opened) p (quote :: rest) = lex .text (p.next quote) rest := by
  cases rest with
  | nil => simp [lex]
  | cons d rest =>
    have hd : d ≠ quote := fun heq => hrest (congrArg some heq)
    simp [lex, hd]

theorem lex_of_closeLine (hc : c = '\r' ∨ c = '\n') :
    lex .lineComment p (c :: rest) = lex .text p (c :: rest) := by
  have hopens : Segment.opens (c :: rest) = false := by
    rcases hc with rfl | rfl <;> rfl
  rw [lex_text_of_not_opens hopens, lex, if_pos hc]

theorem Step.lex_eq (h : Step before mode cs rest mode') :
    lex mode (.behind before) (cs ++ rest) = lex mode' (.behind (before ++ cs)) rest ∨
      (mode = .text ∧ cs = ['?']) ∧ lex mode (.behind before) (cs ++ rest) =
        (.behind before :: ·) <$> lex mode' (.behind (before ++ cs)) rest := by
  rw [Position.behind_append]
  cases h with
  | openQuote hc =>
    left
    rw [List.singleton_append, lex, if_pos hc]
    · rfl
    · rintro _ rfl
      simp at hc
    · rintro _ rfl
      simp at hc
  | openLine => exact .inl (lex.eq_def _ _ _)
  | openBlock => exact .inl (lex.eq_def _ _ _)
  | mark => exact .inr ⟨⟨rfl, rfl⟩, lex.eq_def _ _ _⟩
  | pass hmark hsingle hdouble hdash hslash =>
    left
    rw [List.singleton_append, lex, if_neg (by simp [hsingle, hdouble]), if_neg hmark]
    · rfl
    · rintro _ rfl rfl
      exact hdash rfl rfl
    · rintro _ rfl rfl
      exact hslash rfl rfl
  | inQuotes hc => exact .inl (lex_of_inQuotes hc)
  | doubledQuote =>
    left
    simp [lex, Position.after]
  | closeQuote hrest => exact .inl (lex_of_closeQuote hrest)
  | inLine hcr hlf =>
    left
    rw [List.singleton_append, lex, if_neg (by simp [hcr, hlf])]
    rfl
  | closeLine hc => exact .inl (lex_of_closeLine hc)
  | inBlock hc =>
    left
    rw [List.singleton_append, lex]
    · rfl
    · rintro _ rfl rfl
      exact hc rfl rfl
  | closeBlock => exact .inl (lex.eq_def _ _ _)

/-- The placeholders of a query are met in text, at increasing positions, and stand in front of what
is left of it. -/
structure Noted (query before : List Char) (noted : List Position) : Prop where
  met : ∀ p ∈ noted, ∃ before rest,
    Reads query .text before ('?' :: rest) ∧ p = .behind before
  increasing : noted.Pairwise fun p p' => p.offset < p'.offset
  lt : ∀ p ∈ noted, p.offset < (Position.behind before).offset

namespace Noted

theorem nil (query before : List Char) : Noted query before [] :=
  ⟨by simp, .nil, by simp⟩

theorem append (h : Noted query before noted) (cs : List Char) :
    Noted query (before ++ cs) noted := by
  refine ⟨h.met, h.increasing, fun p hp => ?_⟩
  rw [Position.offset_behind_append]
  exact Nat.lt_add_right _ (h.lt p hp)

theorem mark (h : Noted query before noted) (hreads : Reads query .text before ('?' :: rest)) :
    Noted query (before ++ ['?']) (noted ++ [.behind before]) where
  met := by
    rw [List.forall_mem_append, List.forall_mem_singleton]
    exact ⟨h.met, before, rest, hreads, rfl⟩
  increasing := by
    rw [List.pairwise_append]
    refine ⟨h.increasing, List.pairwise_singleton _ _, fun p hp p' hp' => ?_⟩
    obtain rfl := List.mem_singleton.mp hp'
    exact h.lt p hp
  lt := by
    rw [List.forall_mem_append, List.forall_mem_singleton]
    refine ⟨(h.append ['?']).lt, ?_⟩
    rw [Position.offset_behind_append]
    exact Nat.lt_add_of_pos_right (by decide)

end Noted

namespace Reads

theorem exists_noted (h : Reads query mode before rest) : ∃ noted, Noted query before noted ∧
    lex .text .start query = (noted ++ ·) <$> lex mode (.behind before) rest := by
  induction h with
  | start => exact ⟨[], .nil query [], (id_map _).symm⟩
  | @step mode mode' before cs rest hreads hstep ih =>
    obtain ⟨noted, hnoted, hlex⟩ := ih
    rcases hstep.lex_eq with heq | ⟨⟨rfl, rfl⟩, heq⟩
    · exact ⟨noted, hnoted.append cs, heq ▸ hlex⟩
    · refine ⟨noted ++ [.behind before], hnoted.mark hreads, ?_⟩
      rw [hlex, heq, Functor.map_map]
      simp

theorem append_eq (h : Reads query mode before rest) : before ++ rest = query := by
  induction h with
  | start => rfl
  | step hreads hstep ih => rw [List.append_assoc, ih]

theorem step_lt (h : Reads query mode before (cs ++ rest)) (hstep : Step before mode cs rest mode')
    (hcs : cs ≠ []) : ∃ mode' before' rest', Reads query mode' before' rest' ∧
      rest'.length < (cs ++ rest).length := by
  refine ⟨mode', before ++ cs, rest, h.step hstep, ?_⟩
  rw [List.length_append]
  exact Nat.lt_add_of_pos_left (List.length_pos_iff.mpr hcs)

theorem exists_lt (h : Reads query mode before (c :: rest)) :
    ∃ mode' before' rest', Reads query mode' before' rest' ∧
      rest'.length < (c :: rest).length := by
  have passLine {before : List Char} (hc : c = '\r' ∨ c = '\n') :
      Step before .text [c] rest .text := by
    rcases hc with rfl | rfl <;> exact .pass (by decide) (by decide) (by decide) (by simp) (by simp)
  cases mode with
  | text =>
    by_cases hquote : c = '\'' ∨ c = '"'
    · exact h.step_lt (.openQuote hquote) nofun
    by_cases hmark : c = '?'
    · subst hmark
      exact h.step_lt .mark nofun
    by_cases hline : c = '-' ∧ rest.head? = some '-'
    · obtain ⟨rfl, hrest⟩ := hline
      obtain ⟨rest, rfl⟩ := List.head?_eq_some_iff.mp hrest
      exact step_lt (h : Reads query _ before (['-', '-'] ++ rest)) .openLine nofun
    by_cases hblock : c = '/' ∧ rest.head? = some '*'
    · obtain ⟨rfl, hrest⟩ := hblock
      obtain ⟨rest, rfl⟩ := List.head?_eq_some_iff.mp hrest
      exact step_lt (h : Reads query _ before (['/', '*'] ++ rest)) .openBlock nofun
    obtain ⟨hsingle, hdouble⟩ := not_or.mp hquote
    exact h.step_lt (.pass hmark hsingle hdouble (not_and.mp hline) (not_and.mp hblock)) nofun
  | quoted quote opened =>
    by_cases hc : c = quote
    · subst hc
      by_cases hdoubled : rest.head? = some c
      · obtain ⟨rest, rfl⟩ := List.head?_eq_some_iff.mp hdoubled
        exact step_lt (h : Reads query _ before ([c, c] ++ rest)) .doubledQuote nofun
      · exact h.step_lt (.closeQuote hdoubled) nofun
    · exact h.step_lt (.inQuotes hc) nofun
  | lineComment =>
    by_cases hc : c = '\r' ∨ c = '\n'
    · -- Closing the comment reads nothing, but in text what ended the line is passed over.
      have hclosed : Reads query .text (before ++ []) (c :: rest) := h.step (.closeLine hc)
      exact hclosed.step_lt (passLine hc) nofun
    · obtain ⟨hcr, hlf⟩ := not_or.mp hc
      exact h.step_lt (.inLine hcr hlf) nofun
  | blockComment opened =>
    by_cases hc : c = '*' ∧ rest.head? = some '/'
    · obtain ⟨rfl, hrest⟩ := hc
      obtain ⟨rest, rfl⟩ := List.head?_eq_some_iff.mp hrest
      exact step_lt (h : Reads query _ before (['*', '/'] ++ rest)) .closeBlock nofun
    · exact h.step_lt (.inBlock (not_and.mp hc)) nofun

theorem exists_end (h : Reads query mode before rest) :
    ∃ mode', Reads query mode' query [] := by
  induction hlength : rest.length using Nat.strong_induction_on generalizing mode before rest with
  | _ length ih =>
    subst hlength
    cases rest with
    | nil =>
      have hall : before = query := by simpa using h.append_eq
      exact ⟨mode, hall ▸ h⟩
    | cons c rest =>
      obtain ⟨mode', before', rest', hreads, hlt⟩ := h.exists_lt
      exact ih _ hlt hreads rfl

theorem exists_lex_eq (h : Reads query mode query []) : ∃ noted, Noted query query noted ∧
    lex .text .start query = match mode.opened? with
      | none => .ok noted
      | some opened => .error opened := by
  obtain ⟨noted, hnoted, hlex⟩ := h.exists_noted
  refine ⟨noted, hnoted, ?_⟩
  rw [hlex]
  cases mode <;> simp [lex, Mode.opened?]

theorem behind_mem (h : Reads query .text before ('?' :: rest))
    (hfound : lex .text .start query = .ok found) : .behind before ∈ found := by
  obtain ⟨noted, -, hlex⟩ := h.exists_noted
  have hmark : lex .text (.behind before) ('?' :: rest) =
      (.behind before :: ·) <$> lex .text ((Position.behind before).next '?') rest :=
    lex.eq_def _ _ _
  rw [hlex, hmark, Functor.map_map] at hfound
  obtain ⟨later, -, rfl⟩ := map_eq_ok.mp hfound
  simp

end Reads

theorem nodup_of_increasing (h : found.Pairwise fun p p' => p.offset < p'.offset) :
    found.Nodup := by
  refine h.imp fun hlt heq => ?_
  rw [heq] at hlt
  exact Nat.lt_irrefl _ hlt

theorem lex_eq_ok_iff : lex .text .start query = .ok found ↔
    (∃ mode, Reads query mode query [] ∧ mode.opened? = none) ∧
      (∀ p, p ∈ found ↔ ∃ before rest, Reads query .text before ('?' :: rest) ∧
        p = .behind before) ∧
      found.Pairwise fun p p' => p.offset < p'.offset := by
  constructor
  · intro hfound
    obtain ⟨mode, hend⟩ := (Reads.start : Reads query .text [] query).exists_end
    obtain ⟨noted, hnoted, hlex⟩ := hend.exists_lex_eq
    cases hopened : mode.opened? with
    | some opened => simp [hlex, hopened] at hfound
    | none =>
      obtain rfl : noted = found := by simpa [hlex, hopened] using hfound
      refine ⟨⟨mode, hend, hopened⟩, fun p => ⟨hnoted.met p, ?_⟩, hnoted.increasing⟩
      rintro ⟨before, rest, hmark, rfl⟩
      exact hmark.behind_mem hfound
  · rintro ⟨⟨mode, hend, hopened⟩, hmem, hincreasing⟩
    obtain ⟨noted, hnoted, hlex⟩ := hend.exists_lex_eq
    rw [hopened] at hlex
    -- Both lists are increasing and have the same members.
    have hperm : noted.Perm found := by
      refine (List.perm_ext_iff_of_nodup (nodup_of_increasing hnoted.increasing)
        (nodup_of_increasing hincreasing)).mpr fun p => ⟨fun hp => ?_, fun hp => ?_⟩
      · exact (hmem p).mpr (hnoted.met p hp)
      · obtain ⟨before, rest, hmark, rfl⟩ := (hmem p).mp hp
        exact hmark.behind_mem hlex
    rw [hlex, hperm.eq_of_pairwise (fun p p' _ _ hlt hlt' => ?_) hnoted.increasing hincreasing]
    exact absurd hlt' (Nat.lt_asymm hlt)

theorem lex_eq_error_iff : lex .text .start query = .error opened ↔
    ∃ mode, Reads query mode query [] ∧ mode.opened? = some opened := by
  constructor
  · intro hfault
    obtain ⟨mode, hend⟩ := (Reads.start : Reads query .text [] query).exists_end
    obtain ⟨noted, -, hlex⟩ := hend.exists_lex_eq
    cases hopened : mode.opened? with
    | none => simp [hlex, hopened] at hfault
    | some opened' =>
      obtain rfl : opened' = opened := by simpa [hlex, hopened] using hfault
      exact ⟨mode, hend, hopened⟩
  · rintro ⟨mode, hend, hopened⟩
    obtain ⟨noted, -, hlex⟩ := hend.exists_lex_eq
    rw [hlex, hopened]

/-- A query is refused if and only if reading it ends inside a literal, an identifier or a block
comment, and then for where that was opened. Else its placeholders are exactly the question marks
that are met in text, in the order in which they stand. -/
theorem placeholders_iff_reads (query : String) :
    (∀ fault, placeholders query = .error fault ↔
      ∃ mode opened, Reads query.toList mode query.toList [] ∧ mode.opened? = some opened ∧
        fault = .malformedQuery opened.line opened.column (opened.offset = 0)) ∧
    ∀ found, placeholders query = .ok found ↔
      (∃ mode, Reads query.toList mode query.toList [] ∧ mode.opened? = none) ∧
        (∀ p, p ∈ found ↔ ∃ before rest, Reads query.toList .text before ('?' :: rest) ∧
          p = .behind before) ∧
        found.Pairwise fun p p' => p.offset < p'.offset := by
  refine ⟨fun fault => ⟨fun hfault => ?_, ?_⟩, fun found => ?_⟩
  · rw [placeholders_eq] at hfault
    cases hlex : lex .text .start query.toList with
    | ok found => simp [hlex, Except.mapError] at hfault
    | error opened =>
      obtain ⟨mode, hend, hopened⟩ := lex_eq_error_iff.mp hlex
      refine ⟨mode, opened, hend, hopened, ?_⟩
      simpa [hlex, Except.mapError, eq_comm] using hfault
  · rintro ⟨mode, opened, hend, hopened, rfl⟩
    rw [placeholders_eq, lex_eq_error_iff.mpr ⟨mode, hend, hopened⟩]
    rfl
  · rw [placeholders_eq_ok, lex_eq_ok_iff]

end NestedViews.Query
