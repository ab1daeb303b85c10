import DocExpr.Proofs.Stream.Layers
import Mathlib.Data.List.SplitBy

/-!
# Runs of lines are maximal

What merging makes of the tokens of a stream can be said without the run that is open:
`RunForm.grouped` takes the tokens apart where no line is directly below another one, which leaves
maximal runs of lines, and makes one block of each. `Runs.map_token_merge` says that merging does
just this, whatever the tokens are, and `Stream.mergeStrings_eq_grouped` that back-ticked lines are
merged so, once and for all.
-/

namespace DocExpr

namespace RunForm

/-- Whether two tokens that follow each other are lines of one run: the second one is on the line
directly below the first. Line numbers have 32 bits. -/
def joins (form : RunForm) (t u : Token) : Bool :=
  t.kind == form.line && u.kind == form.line && u.origin.line == t.origin.line + 1

/-- What a run of tokens becomes: lines become one block, which has their texts with line feeds
between them and the place of the first one, and anything else stays. -/
def whole (form : RunForm) : List Token → List Token
  | [] => []
  | t :: ts =>
    if t.kind = form.line then
      [⟨.block form.block, "\n".intercalate ((t :: ts).map Token.text), t.origin⟩]
    else t :: ts

/-- The tokens of which each maximal run of lines is one block. -/
def grouped (form : RunForm) (ts : List Token) : List Token :=
  (ts.splitBy form.joins).flatMap form.whole

variable {form : RunForm} {t u : Token} {ts : List Token}

theorem joins_iff : form.joins t u ↔
    (t.kind = form.line ∧ u.kind = form.line) ∧ u.origin.line = t.origin.line + 1 := by
  simp [joins]

/-- What is no line is a run of its own. -/
theorem eq_nil_of_isChain (h : (t :: ts).IsChain (form.joins · ·)) (ht : t.kind ≠ form.line) :
    ts = [] := by
  cases ts with
  | nil => rfl
  | cons u ts => exact absurd (joins_iff.1 (List.isChain_cons_cons.1 h).1).1.1 ht

end RunForm

namespace Runs

variable {form : RunForm} (finish : Reading) {front rest rs : List Reading} {t : Token}
  {ts : List Token}

/-- Lines that continue an open run are merged with it, up to what does not continue them. -/
theorem exists_merge_some_append {run : Run} (ht : t.kind = form.line)
    (hlast : run.last = t.origin.line)
    (hfront : (t :: front.map Reading.token).IsChain (form.joins · ·))
    (hrest : ∀ u ∈ (rest.map Reading.token).head?,
      form.joins ((t :: front.map Reading.token).getLast (List.cons_ne_nil _ _)) u = false) :
    ∃ block rest', merge form finish (some run)
      (front ++ rest) = block :: merge form finish none rest' ∧
      rest'.map Reading.token = rest.map Reading.token ∧ block.token =
        ⟨.block form.block, "\n".intercalate (run.text :: front.map (·.token.text)),
          run.origin⟩ := by
  induction front generalizing run t with
  | nil =>
    cases rest with
    | nil => exact ⟨run.close form finish, [], rfl, rfl, by simp [Run.close]⟩
    | cons r rest =>
      refine ⟨run.close form r, quiet r :: rest, ?_, rfl, by simp [Run.close]⟩
      refine merge_some_cons fun hr => Bool.eq_false_iff.2 fun hcontinues => ?_
      have hbelow : r.token.origin.line = t.origin.line + 1 := hlast ▸ eq_of_beq hcontinues
      have hjoins := hrest r.token rfl
      rw [List.map_nil, List.getLast_singleton, RunForm.joins_iff.2 ⟨⟨ht, hr⟩, hbelow⟩] at hjoins
      cases hjoins
  | cons r front ih =>
    obtain ⟨hjoins, hchain⟩ := List.isChain_cons_cons.1 hfront
    obtain ⟨⟨-, hr⟩, hbelow⟩ := RunForm.joins_iff.1 hjoins
    have hlast' : (run.push r).last = r.token.origin.line := rfl
    obtain ⟨block, rest', hmerge, hrest', hblock⟩ := ih hr hlast' hchain hrest
    have hcontinues : run.continues r.token := by simp [Run.continues, hbelow, hlast]
    refine ⟨block, rest', ?_, hrest', ?_⟩
    · rw [List.cons_append, merge, if_pos hr, if_pos hcontinues, hmerge]
    · rw [hblock]
      simp [Run.push, String.append_assoc]

/-- A run of lines is merged into one block, if the next token is no further line of it. -/
theorem exists_merge_append (ht : t.kind = form.line) (hfront : front.map Reading.token = t :: ts)
    (hchain : (t :: ts).IsChain (form.joins · ·)) (hrest : ∀ u ∈ (rest.map Reading.token).head?,
      form.joins ((t :: ts).getLast (List.cons_ne_nil _ _)) u = false) :
    ∃ block rest', merge form finish none (front ++ rest) = block :: merge form finish none rest' ∧
      rest'.map Reading.token = rest.map Reading.token ∧ [block.token] = form.whole (t :: ts) := by
  obtain ⟨r, front, rfl, rfl, rfl⟩ := List.map_eq_cons_iff.1 hfront
  obtain ⟨block, rest', hmerge, hrest', hblock⟩ :=
    exists_merge_some_append finish ht (rfl : (Run.start r).last = r.token.origin.line) hchain hrest
  refine ⟨block, rest', ?_, hrest', ?_⟩
  · rw [List.cons_append, merge, if_pos ht, hmerge]
  · rw [hblock, RunForm.whole, if_pos ht]
    simp [Run.start, Function.comp_def]

/-- Merging lines makes one block of each maximal run of them, and leaves everything else. -/
theorem map_token_merge (form : RunForm) (finish : Reading) (rs : List Reading) :
    (merge form finish none rs).map Reading.token = form.grouped (rs.map Reading.token) := by
  suffices h : ∀ groups : List (List Token), [] ∉ groups →
      (∀ group ∈ groups, group.IsChain (form.joins · ·)) →
      (groups.IsChain fun g h => ∃ hg hh, form.joins (g.getLast hg) (h.head hh) = false) →
      ∀ rs : List Reading, rs.map Reading.token = groups.flatten →
        (merge form finish none rs).map Reading.token = groups.flatMap form.whole from
    h _ (List.nil_notMem_splitBy _ _) (fun _ => List.isChain_of_mem_splitBy)
      (List.isChain_getLast_head_splitBy _ _) rs (List.flatten_splitBy _ _).symm
  intro groups hn hchain hends
  induction groups with
  | nil =>
    intro rs hrs
    obtain rfl := List.map_eq_nil_iff.1 hrs
    rfl
  | cons group groups ih =>
    intro rs hrs
    rw [List.mem_cons, not_or] at hn
    obtain ⟨hgroup, hchain⟩ := List.forall_mem_cons.1 hchain
    replace ih := ih hn.2 hchain hends.tail
    obtain ⟨t, ts, rfl⟩ := List.exists_cons_of_ne_nil (Ne.symm hn.1)
    rw [List.flatten_cons] at hrs
    obtain ⟨front, rest, rfl, hfront, hrest⟩ := List.map_eq_append_iff.1 hrs
    rw [List.flatMap_cons]
    by_cases ht : t.kind = form.line
    · have hnext : ∀ u ∈ (rest.map Reading.token).head?,
          form.joins ((t :: ts).getLast (List.cons_ne_nil _ _)) u = false := by
        intro u hu
        rw [hrest] at hu
        cases groups with
        | nil => cases hu
        | cons next groups =>
          obtain ⟨_, hne, hlast⟩ := (List.isChain_cons_cons.1 hends).1
          obtain ⟨v, next, rfl⟩ := List.exists_cons_of_ne_nil hne
          obtain rfl : v = u := Option.some.inj hu
          exact hlast
      obtain ⟨block, rest', hmerge, hrest', hblock⟩ :=
        exists_merge_append finish ht hfront hgroup hnext
      rw [hmerge, List.map_cons, ih rest' (hrest'.trans hrest), ← hblock, List.singleton_append]
    · obtain rfl := RunForm.eq_nil_of_isChain hgroup ht
      obtain ⟨r, rfl, rfl⟩ := List.map_eq_singleton_iff.1 hfront
      rw [List.singleton_append, merge, if_neg ht, List.map_cons, ih rest hrest, RunForm.whole,
        if_neg ht, List.singleton_append]

end Runs

namespace Stream

/-- Whatever is read from a stream, merging strings makes one block of each maximal run of
back-ticked lines and leaves everything else, the end of the input too. So no back-ticked line is
left, and merging strings again changes nothing. -/
theorem mergeStrings_eq_grouped (s : Stream) :
    s.mergeStrings.tokens = stringRuns.grouped s.tokens ∧ s.mergeStrings.finish = s.finish ∧
      (∀ t ∈ s.mergeStrings.tokens, t.kind ≠ .tickedLine) ∧
      s.mergeStrings.mergeStrings = s.mergeStrings := by
  have hline : ∀ r ∈ s.mergeStrings.readings, r.token.kind ≠ stringRuns.line :=
    Runs.forall_merge_of_text (P := fun t => t.kind ≠ stringRuns.line) (Q := fun _ => True)
      (fun t ht _ => by simp [ht, stringRuns]) (fun _ _ h => h) (by simp) (by simp)
  refine ⟨Runs.map_token_merge stringRuns s.lastReading s.readings, rfl, ?_, ?_⟩
  · rw [tokens, List.forall_mem_map]
    exact hline
  · rw [mergeStrings, Runs.merge_of_not_line hline]

end Stream

end DocExpr
