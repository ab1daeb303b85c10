import DocExpr.Proofs.Stream.Layers

/-!
# Attaching documentation conserves a stream

Whatever a stream gives, attaching documentation neither loses nor invents anything
(`Stream.attachDocumentation_conserves`). Tokens that have nothing to do with comments pass
unchanged and in their order: a separator that changes places with a block of comments does so with
no other token. And the texts of comments, put together, stay the same text, because a run of
comments has the lines of its comments.
-/

namespace DocExpr

/-- Whether a token of a kind has the text of comments. -/
def Kind.isCommentary : Kind → Bool
  | .comment | .block .leading | .block .trailing => true
  | _ => false

/-- Whether a token of a kind has nothing to do with comments. -/
def Kind.isPlain (k : Kind) : Bool := !k.isCommentary && k ≠ .document

theorem Documentation.isPlain_of_isSeparator {t : Token} (h : isSeparator t) : t.kind.isPlain := by
  rcases Bool.or_eq_true_iff.1 h with h | h <;> rw [eq_of_beq h] <;> rfl

/-! ## Lines of several texts -/

namespace Text

theorem intercalate_eq_joinLines (texts : List String) :
    "\n".intercalate texts = String.ofList (joinLines (texts.map String.toList)) := by
  have hjoin : ∀ lines : List (List Char), ['\n'].intercalate lines = joinLines lines := by
    intro lines
    induction lines with
    | nil => rfl
    | cons line lines ih =>
      cases lines with
      | nil => simp [joinLines]
      | cons next lines => simp [joinLines, ← ih]
  rw [← hjoin, ← String.toList_inj, String.toList_intercalate]
  simp

/-- Texts that are put together have the lines of the texts. -/
theorem joinLines_flatMap_splitLines (texts : List (List Char)) :
    joinLines (texts.flatMap splitLines) = joinLines texts := by
  induction texts with
  | nil => rfl
  | cons text texts ih =>
    rw [List.flatMap_cons]
    cases texts with
    | nil => simp [joinLines, joinLines_splitLines]
    | cons next texts =>
      have hnext : (next :: texts).flatMap splitLines ≠ [] := by
        simp [splitLines_ne_nil]
      rw [joinLines_append (splitLines_ne_nil text) hnext, ih, joinLines_splitLines]
      rfl

end Text

namespace Stream

/-- The lines of a token that has the text of comments. -/
def commentLines (t : Token) : List (List Char) :=
  if t.kind.isCommentary then Text.splitLines t.text.toList else []

theorem intercalate_text_eq (ts : List Token) :
    "\n".intercalate ((ts.filter fun t => t.kind.isCommentary).map Token.text) =
      String.ofList (Text.joinLines (ts.flatMap commentLines)) := by
  have hlines : ts.flatMap commentLines =
      ((ts.filter fun t => t.kind.isCommentary).map fun t => t.text.toList).flatMap
        Text.splitLines := by
    induction ts with
    | nil => rfl
    | cons t ts ih =>
      rw [List.flatMap_cons, ih, commentLines, List.filter_cons]
      split <;> rfl
  rw [Text.intercalate_eq_joinLines, List.map_map, hlines, Text.joinLines_flatMap_splitLines]
  rfl

theorem flatMap_commentLines_attachDocumentation (s : Stream) :
    s.attachDocumentation.tokens.flatMap commentLines = s.tokens.flatMap commentLines := by
  refine flatMap_attachDocumentation (fun _ => rfl) ?_ ?_ ?_ ?_
  · intro held t hheld _
    have hplain := Documentation.isPlain_of_isSeparator hheld
    rw [Kind.isPlain, Bool.and_eq_true, Bool.not_eq_true'] at hplain
    simp [commentLines, hplain.1]
  · rintro ⟨k, text, o⟩ rfl
    rfl
  · intro run text o o'
    simp [commentLines, Kind.isCommentary, Text.splitLines_append]
  · rintro ⟨k, text, o⟩ _ rfl _
    rfl

theorem filter_isPlain_attachDocumentation (s : Stream) :
    (s.attachDocumentation.tokens.filter fun t => t.kind.isPlain) =
      s.tokens.filter fun t => t.kind.isPlain := by
  have hfilter : ∀ ts : List Token, (ts.filter fun t => t.kind.isPlain) =
      ts.flatMap fun t => [t].filter fun t => t.kind.isPlain := by
    intro ts
    rw [← List.filter_flatMap, List.flatMap_singleton']
  rw [hfilter, hfilter]
  refine flatMap_attachDocumentation (fun _ => rfl) ?_ ?_ (fun _ _ _ _ => rfl) ?_
  · rintro held ⟨k, text, o⟩ _ rfl
    simp [Kind.isPlain, Kind.isCommentary]
  · rintro ⟨k, text, o⟩ rfl
    rfl
  · rintro ⟨k, text, o⟩ _ rfl _
    rfl

/-- Whatever is read from a stream, attaching documentation passes on the tokens that have nothing
to do with comments, unchanged and in their order; the texts of comments, with a line feed between
each two, are the same; no line of a comment is left outside a block; and behind all tokens comes
the same end of the input. -/
theorem attachDocumentation_conserves (s : Stream) :
    (s.attachDocumentation.tokens.filter fun t => t.kind.isPlain) =
        (s.tokens.filter fun t => t.kind.isPlain) ∧
      "\n".intercalate
          ((s.attachDocumentation.tokens.filter fun t => t.kind.isCommentary).map Token.text) =
        "\n".intercalate ((s.tokens.filter fun t => t.kind.isCommentary).map Token.text) ∧
      (∀ t ∈ s.attachDocumentation.tokens, t.kind ≠ .comment) ∧
      s.attachDocumentation.finish = s.finish := by
  refine ⟨filter_isPlain_attachDocumentation s, ?_, ?_, ?_⟩
  · rw [intercalate_text_eq, intercalate_text_eq, flatMap_commentLines_attachDocumentation]
  · exact forall_attachDocumentation_of_text (Q := fun _ => True) (by simp) (by simp_all) (by simp)
      (fun _ _ h => h) (by simp)
  · unfold attachDocumentation
    split <;> rfl

end Stream

end DocExpr
