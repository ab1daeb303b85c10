import DocExpr.Proofs.Text
import DocExpr.Stream.Layer

/-!
# What layers do to tokens

Merging runs of lines and attaching documentation make other tokens of the tokens of a stream. Two
kinds of facts pass through both. What is said of every token is said of every token that is made of
them, if it is said of blocks of lines (`Runs.forall_merge`, `Stream.forall_attachDocumentation`).
And what the tokens contribute to a list, one after the other, stays the same, if a block
contributes what its lines do, and what changes places contributes the same both ways round
(`Runs.flatMap_merge`, `Stream.flatMap_attachDocumentation`).
-/

namespace DocExpr

variable {β : Type}

/-! ## Runs of lines -/

namespace Runs

variable {form : RunForm} {finish : Reading}

theorem merge_of_not_line {rs : List Reading} (h : ∀ r ∈ rs, r.token.kind ≠ form.line) :
    merge form finish none rs = rs := by
  induction rs with
  | nil => rfl
  | cons r rs ih =>
    obtain ⟨hr, hrs⟩ := List.forall_mem_cons.1 h
    rw [merge, if_neg hr, ih hrs]

/-- What is not directly below a run of lines closes it, and is read as if no run had been open. -/
theorem merge_some_cons {run : Run} {r : Reading} {rs : List Reading}
    (h : r.token.kind = form.line → run.continues r.token = false) :
    merge form finish (some run) (r :: rs) =
      run.close form r :: merge form finish none (quiet r :: rs) := by
  have hquiet : (quiet r).token = r.token := rfl
  by_cases hk : r.token.kind = form.line
  · simp [merge, hquiet, hk, h hk]
  · simp [merge, hquiet, hk]

/-- What is said of the tokens of readings holds when the runs of lines are merged, if it holds of
blocks with the texts that runs can have. -/
theorem forall_merge_of_text {P : Token → Prop} {Q : String → Prop}
    (hblock : ∀ t : Token, t.kind = .block form.block → Q t.text → P t)
    {rs : List Reading} (hrs : ∀ r ∈ rs, r.token.kind ≠ form.line → P r.token)
    (hlines : ∀ r ∈ rs, r.token.kind = form.line →
      Q r.token.text ∧ ∀ text, Q text → Q (text ++ "\n" ++ r.token.text))
    {run? : Option Run} (hrun : ∀ run ∈ run?, Q run.text) :
    ∀ r ∈ merge form finish run? rs, P r.token := by
  have close : ∀ {run : Run} (next : Reading), Q run.text → P (run.close form next).token :=
    fun next h => hblock _ rfl h
  induction rs generalizing run? with
  | nil =>
    cases run? with
    | none => simp [merge]
    | some run => simpa [merge] using close finish (hrun run rfl)
  | cons r rs ih =>
    obtain ⟨hr, hrs⟩ := List.forall_mem_cons.1 hrs
    obtain ⟨hline, hlines⟩ := List.forall_mem_cons.1 hlines
    have hnone : ∀ r ∈ merge form finish none rs, P r.token := ih hrs hlines (by simp)
    have hsome : ∀ run : Run, Q run.text → ∀ r ∈ merge form finish (some run) rs, P r.token :=
      fun run h => ih hrs hlines (by simpa using h)
    by_cases hk : r.token.kind = form.line
    · obtain ⟨hstart, hpush⟩ := hline hk
      cases run? with
      | none =>
        rw [merge, if_pos hk]
        exact hsome (.start r) hstart
      | some run =>
        rw [merge, if_pos hk]
        split
        · exact hsome (run.push r) (hpush _ (hrun run rfl))
        · exact List.forall_mem_cons.2 ⟨close r (hrun run rfl), hsome (.start (quiet r)) hstart⟩
    · cases run? with
      | none =>
        rw [merge, if_neg hk]
        exact List.forall_mem_cons.2 ⟨hr hk, hnone⟩
      | some run =>
        rw [merge, if_neg hk]
        exact List.forall_mem_cons.2 ⟨close r (hrun run rfl), List.forall_mem_cons.2 ⟨hr hk, hnone⟩⟩

/-- Lines that are visible make runs of visible lines. -/
theorem visibleLines_run {Q : String → Prop} {t : Token} (h : ∃ line, t.lines = [line] ∧ Q line) :
    (Text.visibleLines t.text ≠ [] ∧ ∀ line ∈ Text.visibleLines t.text, Q line) ∧
      ∀ text, (Text.visibleLines text ≠ [] ∧ ∀ line ∈ Text.visibleLines text, Q line) →
        Text.visibleLines (text ++ "\n" ++ t.text) ≠ [] ∧
          ∀ line ∈ Text.visibleLines (text ++ "\n" ++ t.text), Q line := by
  obtain ⟨line, htext, hQ⟩ := h
  replace htext : Text.visibleLines t.text = [line] := htext
  refine ⟨by simp [htext, hQ], fun text htext' => ?_⟩
  rw [Text.visibleLines_append, htext, List.forall_mem_append]
  exact ⟨by simp, htext'.2, by simpa using hQ⟩

/-- What is said of the tokens of readings holds when the runs of lines are merged, if it holds of
runs of such lines. -/
theorem forall_merge {P : Token → Prop} {Q : String → Prop}
    (hblock : ∀ t : Token, t.kind = .block form.block → t.lines ≠ [] →
      (∀ line ∈ t.lines, Q line) → P t)
    {rs : List Reading} (hrs : ∀ r ∈ rs, r.token.kind ≠ form.line → P r.token)
    (hlines : ∀ r ∈ rs, r.token.kind = form.line → ∃ line, r.token.lines = [line] ∧ Q line) :
    ∀ r ∈ merge form finish none rs, P r.token :=
  forall_merge_of_text
    (Q := fun text => Text.visibleLines text ≠ [] ∧ ∀ line ∈ Text.visibleLines text, Q line)
    (fun t hk h => hblock t hk h.1 h.2) hrs
      (fun r hr hk => visibleLines_run (hlines r hr hk)) (by simp)

/-- What the tokens of readings contribute to a list stays the same when the runs of lines are
merged. -/
theorem flatMap_merge (form : RunForm) (finish : Reading) (f : Token → List β)
    (hrun : ∀ run text o o', f ⟨.block form.block, run ++ "\n" ++ text, o⟩ =
      f ⟨.block form.block, run, o⟩ ++ f ⟨.block form.block, text, o'⟩)
    {rs : List Reading} (hline : ∀ r ∈ rs, r.token.kind = form.line →
      ∀ o, f ⟨.block form.block, r.token.text, o⟩ = f r.token) (run? : Option Run) :
    (merge form finish run? rs).flatMap (fun r => f r.token) =
      run?.toList.flatMap (fun run => f ⟨.block form.block, run.text, run.origin⟩) ++
        rs.flatMap fun r => f r.token := by
  have close : ∀ (run : Run) (next : Reading), f (run.close form next).token =
      f ⟨.block form.block, run.text, run.origin⟩ := fun _ _ => rfl
  have hquiet : ∀ r : Reading, (quiet r).token = r.token := fun _ => rfl
  induction rs generalizing run? with
  | nil =>
    cases run? with
    | none => rfl
    | some run => simp [merge, close]
  | cons r rs ih =>
    obtain ⟨hr, hrs⟩ := List.forall_mem_cons.1 hline
    by_cases hk : r.token.kind = form.line
    · cases run? with
      | none =>
        rw [merge, if_pos hk, ih hrs]
        simp [Run.start, hr hk]
      | some run =>
        rw [merge, if_pos hk]
        split
        · have hpush : f ⟨.block form.block, (run.push r).text, (run.push r).origin⟩ =
              f ⟨.block form.block, run.text, run.origin⟩ ++ f r.token := by
            rw [← hr hk run.origin, ← hrun]
            rfl
          rw [ih hrs]
          simp [hpush]
        · rw [List.flatMap_cons, close, ih hrs]
          simp [Run.start, hquiet, hr hk]
    · cases run? with
      | none =>
        rw [merge, if_neg hk, List.flatMap_cons, ih hrs]
        simp
      | some run =>
        rw [merge, if_neg hk, List.flatMap_cons, List.flatMap_cons, close, ih hrs]
        simp [hquiet]

end Runs

/-! ## Documentation -/

namespace Documentation

@[simp] theorem map_token_inOrder (events : List Event) (ts : List Token) :
    (inOrder events ts).map Reading.token = ts := by
  induction ts generalizing events with
  | nil => rfl
  | cons t ts ih => rw [inOrder, List.map_cons, ih]

/-- What placing a token that is no trailing block comes to: another token takes the place of the
one that is held back, a leading block is given out behind it, and a trailing one goes before it if
it is a separator, behind it otherwise. -/
theorem map_token_attach_cons (held : Token) (r : Reading) (rs : List Reading)
    (hr : r.token.kind ≠ .block .trailing) :
    (attach held (r :: rs)).map Reading.token =
      if r.token.kind = .block .leading then
        if isBehind held r.token then
          if isSeparator held then
            .document r.token.origin :: { r.token with kind := .block .trailing } ::
              (attach held rs).map Reading.token
          else (if held.kind = .document then [held] else [held, .document r.token.origin]) ++
            (attach { r.token with kind := .block .trailing } rs).map Reading.token
        else held :: r.token :: (attach (.document r.token.origin) rs).map Reading.token
      else held :: (attach r.token rs).map Reading.token := by
  rw [attach, List.map_append]
  unfold place placeTrailing
  simp only [hr, if_false]
  by_cases hleading : r.token.kind = .block .leading
  · by_cases hbehind : isBehind held r.token
    · by_cases hseparator : isSeparator held
      · simp [hleading, hbehind, hseparator, map_token_inOrder]
      · by_cases hdocument : held.kind = .document <;>
          simp [hleading, hbehind, hseparator, hdocument, map_token_inOrder]
    · simp [hleading, hbehind, map_token_inOrder]
  · simp [hleading]

section

variable {P : Token → Prop} (hdocument : ∀ o, P (.document o))
  (htrailing : ∀ t : Token, t.kind = .block .leading → P t → P { t with kind := .block .trailing })

include hdocument

theorem forall_placeTrailing {held t : Token} (events : List Event) (hheld : P held) (ht : P t) :
    P (placeTrailing held events t).held ∧
      ∀ u ∈ (placeTrailing held events t).given.map Reading.token, P u := by
  unfold placeTrailing
  split
  · simp [hheld, ht, hdocument]
  · split <;> simp [hheld, ht, hdocument]

include htrailing

theorem forall_place {held : Token} {r : Reading} (hheld : P held) (hr : P r.token) :
    P (place held r).held ∧ ∀ u ∈ (place held r).given.map Reading.token, P u := by
  unfold place
  simp only
  split
  · next hleading =>
    split
    · exact forall_placeTrailing hdocument _ hheld (htrailing _ hleading hr)
    · simp [hheld, hr, hdocument]
  · split
    · exact forall_placeTrailing hdocument _ hheld hr
    · simp [hheld, hr]

/-- What is said of tokens holds when documentation is attached. -/
theorem forall_attach {held : Token} {rs : List Reading} (hheld : P held)
    (hrs : ∀ r ∈ rs, P r.token) : ∀ u ∈ (attach held rs).map Reading.token, P u := by
  induction rs generalizing held with
  | nil => simpa [attach] using hheld
  | cons r rs ih =>
    obtain ⟨hr, hrs⟩ := List.forall_mem_cons.1 hrs
    obtain ⟨hheld', hgiven⟩ := forall_place hdocument htrailing hheld hr
    rw [attach, List.map_append, List.forall_mem_append]
    exact ⟨hgiven, ih hheld' hrs⟩

end

section

variable {f : Token → List β} (hdocument : ∀ o, f (.document o) = [])
  (hswap : ∀ held t, isSeparator held → t.kind = .block .trailing → f t ++ f held = f held ++ f t)
  (htrailing : ∀ t : Token, t.kind = .block .leading → f { t with kind := .block .trailing } = f t)

include hdocument hswap

theorem flatMap_placeTrailing (held : Token) (events : List Event) {t : Token}
    (ht : t.kind = .block .trailing) :
    ((placeTrailing held events t).given.map Reading.token).flatMap f ++
        f (placeTrailing held events t).held = f held ++ f t := by
  unfold placeTrailing
  split
  · next h => simp [hdocument, hswap held t h ht]
  · split <;> simp [hdocument]

include htrailing

theorem flatMap_place (held : Token) (r : Reading) :
    ((place held r).given.map Reading.token).flatMap f ++ f (place held r).held =
      f held ++ f r.token := by
  unfold place
  simp only
  split
  · next hleading =>
    split
    · rw [flatMap_placeTrailing hdocument hswap _ _ rfl, htrailing _ hleading]
    · simp [hdocument]
  · split
    · next ht => exact flatMap_placeTrailing hdocument hswap _ _ ht
    · simp

/-- What tokens contribute to a list stays the same when documentation is attached. -/
theorem flatMap_attach (held : Token) (rs : List Reading) :
    ((attach held rs).map Reading.token).flatMap f =
      f held ++ (rs.map Reading.token).flatMap f := by
  induction rs generalizing held with
  | nil => simp [attach]
  | cons r rs ih =>
    rw [attach, List.map_append, List.flatMap_append, ih, ← List.append_assoc,
      flatMap_place hdocument hswap htrailing]
    simp

end

end Documentation

/-! ## Streams -/

namespace Stream

open Documentation

/-- What is said of the tokens of a stream holds when documentation is attached, if it holds of
documentation with the texts that runs of comments can have. -/
theorem forall_attachDocumentation_of_text {P : Token → Prop} {Q : String → Prop} {s : Stream}
    (hdocument : ∀ o, P (.document o))
    (hleading : ∀ t : Token, t.kind = .block .leading → Q t.text → P t)
    (htrailing : ∀ t : Token, t.kind = .block .leading → P t →
      P { t with kind := .block .trailing })
    (hs : ∀ t ∈ s.tokens, t.kind ≠ .comment → P t)
    (hlines : ∀ t ∈ s.tokens, t.kind = .comment →
      Q t.text ∧ ∀ text, Q text → Q (text ++ "\n" ++ t.text)) :
    ∀ t ∈ s.attachDocumentation.tokens, P t := by
  rw [tokens, List.forall_mem_map] at hs hlines
  have hmerge : ∀ r ∈ Runs.merge commentRuns s.lastReading none s.readings, P r.token :=
    Runs.forall_merge_of_text hleading hs hlines (by simp)
  unfold attachDocumentation
  split
  · simp [tokens]
  · next first rest h =>
    rw [h, List.forall_mem_cons] at hmerge
    rw [tokens]
    split
    · rw [List.map_append, List.forall_mem_append, map_token_inOrder]
      exact ⟨by simpa using hmerge.1, forall_attach hdocument htrailing (hdocument _) hmerge.2⟩
    · exact forall_attach hdocument htrailing hmerge.1 hmerge.2

/-- What is said of the tokens of a stream holds when documentation is attached, if it holds of
documentation. -/
theorem forall_attachDocumentation {P : Token → Prop} {Q : String → Prop} {s : Stream}
    (hdocument : ∀ o, P (.document o))
    (hleading : ∀ t : Token, t.kind = .block .leading → t.lines ≠ [] →
      (∀ line ∈ t.lines, Q line) → P t)
    (htrailing : ∀ t : Token, t.kind = .block .leading → P t →
      P { t with kind := .block .trailing })
    (hs : ∀ t ∈ s.tokens, t.kind ≠ .comment → P t)
    (hlines : ∀ t ∈ s.tokens, t.kind = .comment → ∃ line, t.lines = [line] ∧ Q line) :
    ∀ t ∈ s.attachDocumentation.tokens, P t :=
  forall_attachDocumentation_of_text
    (Q := fun text => Text.visibleLines text ≠ [] ∧ ∀ line ∈ Text.visibleLines text, Q line)
    hdocument (fun t hk h => hleading t hk h.1 h.2) htrailing hs
    (fun t ht hk => Runs.visibleLines_run (hlines t ht hk))

variable {f : Token → List β} {s : Stream}

/-- What the tokens of a stream contribute to a list stays the same when documentation is
attached. -/
theorem flatMap_attachDocumentation (hdocument : ∀ o, f (.document o) = [])
    (hswap : ∀ held t, isSeparator held → t.kind = .block .trailing → f t ++ f held = f held ++ f t)
    (htrailing : ∀ t : Token, t.kind = .block .leading →
      f { t with kind := .block .trailing } = f t)
    (hrun : ∀ run text o o', f ⟨.block .leading, run ++ "\n" ++ text, o⟩ =
      f ⟨.block .leading, run, o⟩ ++ f ⟨.block .leading, text, o'⟩)
    (hline : ∀ t ∈ s.tokens, t.kind = .comment → ∀ o, f ⟨.block .leading, t.text, o⟩ = f t) :
    s.attachDocumentation.tokens.flatMap f = s.tokens.flatMap f := by
  rw [tokens, List.forall_mem_map] at hline
  have hmerge := Runs.flatMap_merge commentRuns s.lastReading f hrun hline none
  rw [Option.toList_none, List.flatMap_nil, List.nil_append] at hmerge
  rw [tokens, tokens, List.flatMap_map, List.flatMap_map, ← hmerge]
  unfold attachDocumentation
  split
  · next h => simp [h]
  · next first rest h =>
    have hattach := fun held => flatMap_attach hdocument hswap htrailing held rest
    simp only [List.flatMap_map] at hattach
    rw [h]
    split
    · rw [List.flatMap_append, hattach, ← List.flatMap_map, map_token_inOrder]
      simp [hdocument]
    · rw [hattach]
      simp

/-- What the tokens of a stream contribute to a list stays the same when back-ticked lines are
merged. -/
theorem flatMap_mergeStrings
    (hrun : ∀ run text o o', f ⟨.block .multiline, run ++ "\n" ++ text, o⟩ =
      f ⟨.block .multiline, run, o⟩ ++ f ⟨.block .multiline, text, o'⟩)
    (hline : ∀ t ∈ s.tokens, t.kind = .tickedLine → ∀ o, f ⟨.block .multiline, t.text, o⟩ = f t) :
    s.mergeStrings.tokens.flatMap f = s.tokens.flatMap f := by
  rw [tokens, List.forall_mem_map] at hline
  have hmerge := Runs.flatMap_merge stringRuns s.lastReading f hrun hline none
  rw [Option.toList_none, List.flatMap_nil, List.nil_append] at hmerge
  rw [tokens, tokens, List.flatMap_map, List.flatMap_map, ← hmerge]
  rfl

end Stream

end DocExpr
