import DocExpr.Proofs.Comments.Source

/-!
# Where documentation stands in a stream

In what the parser sees, the document operator stands behind every leading block, before every
trailing one, and nowhere else (`Documented`). Attaching documentation makes it so
(`Documentation.documented_attach`), and merging back-ticked lines leaves it so
(`Runs.documented_merge`), so it holds of every source text (`Glyph.Scans.documented_ofSource`).
-/

namespace DocExpr

/-- Whether a token of a kind is documentation or attaches some. -/
def Kind.isDocumentary : Kind → Bool
  | .block .leading | .block .trailing | .document => true
  | _ => false

/-- Whether the document operator stands behind leading and before trailing blocks only, and always
there. One operator can stand between two blocks. -/
inductive Documented : List Kind → Prop where
  | nil : Documented []
  | plain {k : Kind} {ks : List Kind} (hk : k.isDocumentary = false) (h : Documented ks) :
    Documented (k :: ks)
  | leading {ks : List Kind} (h : Documented ks) : Documented (.block .leading :: .document :: ks)
  | trailing {ks : List Kind} (h : Documented ks) : Documented (.document :: .block .trailing :: ks)
  | both {ks : List Kind} (h : Documented ks) :
    Documented (.block .leading :: .document :: .block .trailing :: ks)

namespace Documentation

/-- The kinds of the tokens of readings. -/
def kinds (rs : List Reading) : List Kind := (rs.map Reading.token).map Token.kind

@[simp] theorem kinds_nil : kinds [] = [] := rfl

@[simp] theorem kinds_cons (r : Reading) (rs : List Reading) :
    kinds (r :: rs) = r.token.kind :: kinds rs := rfl

@[simp] theorem kinds_append (rs rs' : List Reading) :
    kinds (rs ++ rs') = kinds rs ++ kinds rs' := by
  simp [kinds]

@[simp] theorem kinds_inOrder (events : List Event) (ts : List Token) :
    kinds (inOrder events ts) = ts.map Token.kind := by
  rw [kinds, map_token_inOrder]

/-- The kinds of what placing a token that is no trailing block comes to. -/
theorem kinds_attach_cons (held : Token) (r : Reading) (rs : List Reading)
    (hr : r.token.kind ≠ .block .trailing) :
    kinds (attach held (r :: rs)) =
      if r.token.kind = .block .leading then
        if isBehind held r.token then
          if isSeparator held then .document :: .block .trailing :: kinds (attach held rs)
          else (if held.kind = .document then [.document] else [held.kind, .document]) ++
            kinds (attach { r.token with kind := .block .trailing } rs)
        else held.kind :: .block .leading :: kinds (attach (.document r.token.origin) rs)
      else held.kind :: kinds (attach r.token rs) := by
  rw [kinds, map_token_attach_cons held r rs hr]
  split_ifs <;> simp_all [kinds]

/-- Attached documentation stands where it should, whatever is held back: a leading block has been
given out before its operator, and the operator before a trailing block. -/
theorem documented_attach {rs : List Reading}
    (hrs : ∀ r ∈ rs, r.token.kind.isDocumentary → r.token.kind = .block .leading) (held : Token) :
    (held.kind.isDocumentary = false → Documented (kinds (attach held rs))) ∧
      (held.kind = .document → Documented (.block .leading :: kinds (attach held rs))) ∧
      (held.kind = .block .trailing → Documented (.document :: kinds (attach held rs)) ∧
        Documented (.block .leading :: .document :: kinds (attach held rs))) := by
  induction rs generalizing held with
  | nil =>
    simp only [attach, kinds_cons, kinds_nil]
    refine ⟨fun h => .plain h .nil, ?_, ?_⟩
    · rintro h
      rw [h]
      exact .leading .nil
    · rintro h
      rw [h]
      exact ⟨.trailing .nil, .both .nil⟩
  | cons r rs ih =>
    obtain ⟨hr, hrs⟩ := List.forall_mem_cons.1 hrs
    have hplain := fun held => (ih hrs held).1
    have hdocument := fun held => (ih hrs held).2.1
    have htrailing := fun held => (ih hrs held).2.2
    rw [kinds_attach_cons held r rs (fun h => by simp [h, Kind.isDocumentary] at hr)]
    by_cases hleading : r.token.kind = .block .leading
    · simp only [if_pos hleading]
      split
      · -- the block is trailing, and takes the place of what is held back unless this separates
        -- items
        have hblock := htrailing { r.token with kind := .block .trailing } rfl
        refine ⟨fun h => ?_, fun h => ?_, fun h => ?_⟩
        · split
          · exact .trailing (hplain held h)
          · rw [if_neg (by rintro hk; rw [hk] at h; cases h)]
            exact .plain h hblock.1
        · rw [if_neg (by simp [isSeparator, h]), if_pos h]
          exact hblock.2
        · rw [if_neg (by simp [isSeparator, h]), if_neg (by simp [h]), h]
          exact ⟨.trailing hblock.1, .both hblock.1⟩
      · have hblock := hdocument (.document r.token.origin) rfl
        refine ⟨fun h => .plain h hblock, fun h => ?_, fun h => ?_⟩
        · rw [h]
          exact .leading hblock
        · rw [h]
          exact ⟨.trailing hblock, .both hblock⟩
    · rw [if_neg hleading]
      have hnext := hplain r.token (by simpa using mt hr hleading)
      refine ⟨fun h => .plain h hnext, fun h => ?_, fun h => ?_⟩
      · rw [h]
        exact .leading hnext
      · rw [h]
        exact ⟨.trailing hnext, .both hnext⟩

theorem exists_of_kinds_eq_cons_cons {rs : List Reading} {k k' : Kind} {ks : List Kind}
    (h : kinds rs = k :: k' :: ks) :
    ∃ r r' rs', rs = r :: r' :: rs' ∧ r.token.kind = k ∧ r'.token.kind = k' ∧ kinds rs' = ks := by
  match rs, h with
  | r :: r' :: rs', h =>
    simp only [kinds_cons, List.cons.injEq] at h
    exact ⟨r, r', rs', rfl, h⟩

end Documentation

open Documentation

/-- Merging lines that are no documentation leaves documentation where it is, whatever lines come
before. -/
theorem Runs.documented_merge {form : RunForm} {finish : Reading} {rs : List Reading}
    (hline : form.line.isDocumentary = false)
    (hblock : (Kind.block form.block).isDocumentary = false)
    (h : Documented (kinds rs)) (run? : Option Run) :
    Documented (kinds (merge form finish run? rs)) := by
  have merge_none : ∀ {r : Reading} {rs : List Reading}, r.token.kind.isDocumentary →
      merge form finish none (r :: rs) = r :: merge form finish none rs := fun hr =>
    if_neg fun hk => by rw [hk, hline] at hr; cases hr
  -- an open run is closed by what is no line, and becomes a token that is no documentation
  have close : ∀ {r : Reading} {rs : List Reading}, r.token.kind ≠ form.line →
      Documented (kinds (merge form finish none (r :: rs))) →
        ∀ run?, Documented (kinds (merge form finish run? (r :: rs))) := by
    intro r rs hr hrest run?
    cases run? with
    | none => exact hrest
    | some run =>
      have hmerge : merge form finish none (r :: rs) = r :: merge form finish none rs := if_neg hr
      rw [hmerge, kinds_cons] at hrest
      rw [merge, if_neg hr]
      exact .plain hblock hrest
  have close_documentary : ∀ {r : Reading} {rs : List Reading}, r.token.kind.isDocumentary →
      Documented (r.token.kind :: kinds (merge form finish none rs)) →
        ∀ run?, Documented (kinds (merge form finish run? (r :: rs))) := fun hr hrest =>
    close (fun hk => by rw [hk, hline] at hr; cases hr) (by rwa [merge_none hr])
  generalize hks : kinds rs = ks at h
  induction h generalizing rs run? with
  | nil =>
    obtain rfl : rs = [] := by simpa [kinds] using hks
    cases run? with
    | none => exact .nil
    | some run => exact .plain hblock .nil
  | plain hk h ih =>
    obtain ⟨r, rs, rfl⟩ := List.exists_cons_of_ne_nil (l := rs) (by rintro rfl; cases hks)
    obtain ⟨rfl, hrest⟩ := List.cons.inj hks
    by_cases hr : r.token.kind = form.line
    · cases run? with
      | none =>
        rw [merge, if_pos hr]
        exact ih _ hrest
      | some run =>
        rw [merge, if_pos hr]
        split
        · exact ih _ hrest
        · exact .plain hblock (ih _ hrest)
    · refine close hr ?_ run?
      rw [merge, if_neg hr]
      exact .plain hk (ih none hrest)
  | leading h ih =>
    obtain ⟨r, d, rs, rfl, hr, hd, hks⟩ := exists_of_kinds_eq_cons_cons hks
    refine close_documentary (by rw [hr]; rfl) ?_ run?
    rw [merge_none (by rw [hd]; rfl), kinds_cons, hr, hd]
    exact .leading (ih none hks)
  | trailing h ih =>
    obtain ⟨d, r, rs, rfl, hd, hr, hks⟩ := exists_of_kinds_eq_cons_cons hks
    refine close_documentary (by rw [hd]; rfl) ?_ run?
    rw [merge_none (by rw [hr]; rfl), kinds_cons, hd, hr]
    exact .trailing (ih none hks)
  | both h ih =>
    obtain ⟨l, d, rs, rfl, hl, hd, hks⟩ := exists_of_kinds_eq_cons_cons hks
    obtain ⟨r, rs, rfl⟩ := List.exists_cons_of_ne_nil (l := rs) (by rintro rfl; cases hks)
    obtain ⟨hr, hrest⟩ := List.cons.inj hks
    refine close_documentary (by rw [hl]; rfl) ?_ run?
    rw [merge_none (by rw [hd]; rfl), merge_none (by rw [hr]; rfl), kinds_cons, kinds_cons,
      hl, hd, hr]
    exact .both (ih none hrest)

theorem Runs.exists_merge_some (form : RunForm) (finish : Reading) (run : Run) (rs : List Reading) :
    ∃ r rs', merge form finish (some run) rs = r :: rs' ∧ r.token.kind = .block form.block ∧
      r.token.origin = run.origin := by
  induction rs generalizing run with
  | nil => exact ⟨_, _, rfl, rfl, rfl⟩
  | cons r rs ih =>
    rw [merge]
    split
    · split
      · exact ih _
      · exact ⟨_, _, rfl, rfl, rfl⟩
    · exact ⟨_, _, rfl, rfl, rfl⟩

/-- Attached documentation stands where it should, if there was none before. -/
theorem Stream.documented_attachDocumentation {s : Stream}
    (hs : ∀ t ∈ s.tokens, t.kind.isDocumentary = false) :
    Documented (s.attachDocumentation.tokens.map Token.kind) := by
  rw [tokens, List.forall_mem_map] at hs
  have hmerge : ∀ r ∈ Runs.merge commentRuns s.lastReading none s.readings,
      r.token.kind.isDocumentary → r.token.kind = .block .leading :=
    Runs.forall_merge_of_text (P := fun t => t.kind.isDocumentary → t.kind = .block .leading)
      (Q := fun _ => True) (fun t ht _ _ => ht) (fun r hr _ hk => by rw [hs r hr] at hk; cases hk)
      (by simp) (by simp)
  show Documented (kinds s.attachDocumentation.readings)
  unfold attachDocumentation
  cases hreadings : s.readings with
  | nil => exact .nil
  | cons r rs =>
    rw [hreadings] at hmerge hs
    obtain ⟨hr, -⟩ := List.forall_mem_cons.1 hs
    by_cases hcomment : r.token.kind = .comment
    · have hfirst : Runs.merge commentRuns s.lastReading none (r :: rs) =
          Runs.merge commentRuns s.lastReading (some (.start r)) rs := if_pos hcomment
      obtain ⟨first, rest, hrest, hkind, -⟩ := Runs.exists_merge_some commentRuns
        s.lastReading (.start r) rs
      rw [hfirst, hrest] at hmerge
      rw [hfirst, hrest]
      simp only [List.head?_cons, Option.any_some, decide_eq_true hcomment, if_true, kinds_append,
        kinds_inOrder, List.map_cons, List.map_nil, hkind, List.singleton_append]
      exact (documented_attach (List.forall_mem_cons.1 hmerge).2 _).2.1 rfl
    · have hfirst : Runs.merge commentRuns s.lastReading none (r :: rs) =
          r :: Runs.merge commentRuns s.lastReading none rs := if_neg hcomment
      rw [hfirst] at hmerge
      rw [hfirst]
      simp only [List.head?_cons, Option.any_some, decide_eq_false hcomment, Bool.false_eq_true,
        if_false]
      exact (documented_attach (List.forall_mem_cons.1 hmerge).2 _).1 hr

/-- No token of a text is documentation or attaches some. -/
theorem Glyph.Scans.isDocumentary_ofText {text : String} {gs : List Glyph}
    (h : Scans text.toList gs) (file : String) :
    ∀ t ∈ (Stream.ofText text file).tokens, t.kind.isDocumentary = false := by
  intro t ht
  rw [h.tokens_ofText file] at ht
  obtain ⟨g, hg, o, rfl⟩ := mem_placed ht
  obtain ⟨-, hblock, hdocument⟩ := h.kind_ne hg
  obtain ⟨gap, k, w⟩ := g
  cases k with
  | block b => exact absurd rfl (hblock b)
  | document => exact absurd rfl hdocument
  | _ => rfl

/-- In what the parser sees of a source text, documentation stands where it should. -/
theorem Glyph.Scans.documented_ofSource {text : String} {gs : List Glyph} (h : Scans text.toList gs)
    (file : String) : Documented ((Stream.ofSource text file).tokens.map Token.kind) :=
  Runs.documented_merge rfl rfl
    (Stream.documented_attachDocumentation (h.isDocumentary_ofText file)) none

end DocExpr
