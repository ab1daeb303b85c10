import DocExpr.Proofs.ItemLists.Written
import DocExpr.Proofs.RoundTrip

/-!
# Documented item lists come back

What is written for an item list, in any width, is read as the same item list exactly if no
documentation in it reaches around (`ItemLists.parse_formatItems_iff`). Its glyphs are one chunk,
which is then read as the text of the list (`ItemLists.recovers_formatItems`), and the text of a
tree that has one is read as that tree.

Lines are counted in 32 bits. Where documentation behind an item has so many lines that those of the
next item have the same numbers again (`ItemLists.wraps`), documentation above that item is read as
more documentation behind the first one. What is read has then fewer blocks of leading
documentation than the item list, so it is another tree (`ItemLists.clear_of_parse`).
-/

namespace DocExpr

namespace ItemLists

open Glyph Page

/-- What is written as one chunk is read as the symbols of the chunk. -/
theorem symbols_of_chunk {e : Expr} {width n : Nat} {gs : List Glyph} {gap : List Char}
    {s : List Symbol} (hp : (e.writeFile (empty width)).Stands .settled gs gap)
    (hstaged : (e.writeFile (empty width)).staged = []) (hchunk : Chunk gs s n)
    (hbegins : Begins 1 gs) (file : String) :
    (Stream.ofSource (e.formatItems width) file).tokens.map Token.symbol = s := by
  obtain ⟨front, column, hscan⟩ := hp.toPrints.text
  have hapart : (gs.map kind).IsChain Kind.Apart := by
    refine (List.pairwise_of_forall_mem_list fun k hk k' _ => ?_).isChain
    obtain ⟨g, hg, rfl⟩ := List.mem_map.1 hk
    exact fun h => (hchunk.plain g hg).2 h.1
  rw [hstaged, notes, List.append_nil, glue_of_apart hapart] at hscan
  exact hchunk.symbols_ofSource hscan hbegins file

/-- A file of items begins where one of them can stand. -/
theorem stands_begun (e : Expr) (width : Nat) :
    ((empty width).pushMode e.spacing).Stands .ready [] [] :=
  (stands_empty width).congr rfl rfl rfl

/-- What is written for items is read as their texts with commas between them, unless documentation
reaches around. -/
theorem recovers_formatItems {es : List Expr} {o : Origin} (hes : ∀ e ∈ es, WritesItem e)
    (width : Nat) (file : String) : Recovers (Clear (.group es o))
      ((Stream.ofSource ((Expr.group es o).formatItems width) file).tokens.map Token.symbol)
      (Expr.spellAll (.mark .comma) es) := by
  cases es with
  | nil =>
    obtain ⟨front, column, hscan⟩ := (stands_empty width).toPrints.text
    have hnone : Scans ((Expr.group [] o).formatItems width).toList [] := hscan
    rw [hnone.symbols_ofSource (by simp) file]
    exact .refl (clear_group.2 (by simp)) _
  | cons e es =>
    obtain ⟨cs, hs, s, hw⟩ := exists_writtenItems hes (stands_begun (.group (e :: es) o) width) rfl
      fun f hf => Expr.wider_spacing hf
    obtain ⟨gap, hp⟩ := hw.stands
    obtain ⟨n, hchunk⟩ := hw.chunk
    have hpage : ((Expr.group (e :: es) o).writeFile (empty width)).Stands .settled
        (cs ++ hs) gap := hp.congr rfl rfl rfl
    have hbegins : Begins 1 cs := by
      intro c hc _
      rw [isBelow_eq, hw.breaks c hc]
      decide
    rw [symbols_of_chunk hpage hw.staged (hchunk.headed hw.block hw.plain)
      (hbegins.append hw.plain) file]
    exact hw.recovers.congr clear_group.symm

/-- A text that is read as an item list has the blocks of leading documentation that are in the
list. -/
theorem flatMap_headings_of_parse {es : List Expr} {o : Origin} {text file : String} {e' : Expr}
    (h : parseAs .items text file = .ok e') (halike : e'.alike (.group es o)) :
    ((Stream.ofSource text file).tokens.map Token.symbol).flatMap headings =
      (Expr.spellAll (.mark .comma) es).flatMap headings := by
  obtain ⟨-, hspelled⟩ := Goal.parseAs_spelled h
  have herase := (Expr.alike_iff_erase_eq e' _).1 halike
  have hgroup := Expr.ItemsSpelledBy.spelled hspelled
  rw [← Expr.spelledBy_erase, herase, Expr.spelledBy_erase] at hgroup
  have hexpression : Goal.expression.SpelledBy (.group es o) _ := hgroup
  have hheadings := hexpression.flatMap (f := headings) rfl
  simpa [Goal.spell, Expr.spell, headings] using hheadings.symm

/-! ## Documented items -/

/-- A word without a place. -/
def word (text : String) : Expr := .atom .identifier text .synthetic

/-- An item with documentation behind it. -/
def notedItem (value : Expr) (lines : List String) : Expr :=
  .chain .qualify [word "a", .chain .document [value, .block .trailing lines .synthetic] .synthetic]
    .synthetic

/-- An item with documentation above it. -/
def headedItem (lines : List String) : Expr :=
  .chain .qualify [.chain .document [.block .leading lines .synthetic, word "c"] .synthetic,
    word "d"] .synthetic

theorem derives_notedItem {value : Expr} {lines : List String} (h : Derives .value value)
    (hlines : IsDocumentation lines) : Derives .item (notedItem value lines) :=
  .item (.name (by decide +kernel)) (.documentedContent h hlines)

theorem derives_headedItem {lines : List String} (hlines : IsDocumentation lines) :
    Derives .item (headedItem lines) :=
  .item (.documentedName hlines (by decide +kernel)) (.content (.word (by decide +kernel)))

/-! ## Item lists -/

/-- What comes back has no documentation that reaches around. -/
theorem clear_of_parse {e e' : Expr} {width : Nat} {file : String} (h : Derives .items e)
    (hparse : parseItems (e.formatItems width) file = .ok e') (halike : e'.alike e) : Clear e := by
  obtain @⟨es, o, hitems⟩ := h
  have hrecovers := recovers_formatItems (o := o) (fun f hf => (hitems f hf).writes) width file
  by_contra hclear
  have hheadings := flatMap_headings_of_parse hparse halike
  exact (hrecovers.fewer hclear).ne (congrArg List.length hheadings)

/-- An item list is written, in any width, as a text that is read as the same item list, up to
places in the source, exactly if in none of its lists documentation behind an item reaches around
to documentation above the next. -/
theorem parse_formatItems_iff (e : Expr) (h : Derives .items e) (width : Nat) (file : String) :
    (∃ e', parseItems (e.formatItems width) file = .ok e' ∧ e'.alike e) ↔ Clear e := by
  refine ⟨fun ⟨e', hparse, halike⟩ => clear_of_parse h hparse halike, fun hclear => ?_⟩
  have hadmissible := h.admissible
  obtain @⟨es, o, hitems⟩ := h
  have hspelled : Goal.items.SpelledBy (.group es o)
      ((Stream.ofSource ((Expr.group es o).formatItems width) file).tokens.map Token.symbol) := by
    rw [(recovers_formatItems (fun f hf => (hitems f hf).writes) width file).same hclear]
    exact ⟨rfl, .inl (Expr.joinedBy_spellAll _ _)⟩
  obtain ⟨e', hparse, herase⟩ := Goal.parse_complete hadmissible hspelled
  exact ⟨e', hparse, (Expr.alike_iff_erase_eq e' _).2 herase⟩

/-- Documentation behind a list in which an item is documented, and above the item that follows
it. -/
theorem parse_formatItems_nested :
    let inner : Expr := .group [headedItem ["// inner"]] .synthetic
    let e : Expr := .group [notedItem inner ["// behind"], headedItem ["// above"]] .synthetic
    ∃ e', parseItems (e.formatItems 4) "" = .ok e' ∧ e'.alike e := by
  intro inner e
  have hinner : Derives .items inner :=
    .items (List.forall_mem_singleton.2 (derives_headedItem (by decide +kernel)))
  have he : Derives .items e :=
    .items (List.forall_mem_cons.2 ⟨derives_notedItem (.nested hinner) (by decide +kernel),
      List.forall_mem_singleton.2 (derives_headedItem (by decide +kernel))⟩)
  exact (parse_formatItems_iff e he 4 "").2 (by decide +kernel)

/-- A block of comments that has one line less than 32 bits can count takes what is above the next
item. -/
theorem not_parse_formatItems :
    let e : Expr := .group
      [notedItem (word "b") (List.replicate (UInt32.size - 1) "//"), headedItem ["//"]] .synthetic
    Derives .items e ∧ ¬∃ e', parseItems (e.formatItems 0) "" = .ok e' ∧ e'.alike e := by
  intro e
  have hbehind : IsDocumentation (List.replicate (UInt32.size - 1) "//") := by
    refine ⟨mt (List.replicate_eq_nil_iff _).1 (by decide), fun line hline => ?_⟩
    obtain rfl := List.eq_of_mem_replicate hline
    decide +kernel
  have he : Derives .items e :=
    .items (List.forall_mem_cons.2 ⟨derives_notedItem (.word (by decide +kernel)) hbehind,
      List.forall_mem_singleton.2 (derives_headedItem (by decide +kernel))⟩)
  refine ⟨he, fun ⟨e', hparse, halike⟩ => ?_⟩
  have hapart := List.isChain_pair.1 (clear_group.1 (clear_of_parse he hparse halike)).1
  have hnone : wraps (List.replicate (UInt32.size - 1) "//") = false :=
    hapart (List.cons_ne_nil _ _)
  rw [wraps, List.length_replicate] at hnone
  exact absurd hnone (by decide)

end ItemLists

end DocExpr
