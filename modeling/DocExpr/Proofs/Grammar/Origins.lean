import DocExpr.Proofs.Grammar.Soundness

/-!
# Where nodes come from

Every node of a tree that is read stands where one of the tokens does from which it was read, its
landmark: a leaf where its only token does, brackets and what is written behind an item where they
open, an operator before its operand where the operator does, and a chain of operands where its
first operator does, however many operands there are (`Expr.PlacedBy`). So the landmarks of a tree,
from left to right, are among its tokens, in the same order (`Expr.PlacedBy.landmarks_sublist`).

A run of the expression machine keeps the tokens taken so far placed in this way
(`Progress.placed_step`, `Progress.run_placed`). Powers have no part in it.
-/

namespace DocExpr

/-- What the grammar sees of a token, and where it stands. -/
structure Spot where
  symbol : Symbol
  origin : Origin
deriving DecidableEq

/-- What the grammar sees of a token, and where it stands. -/
def Token.spot (t : Token) : Spot := ⟨t.symbol, t.origin⟩

theorem Token.spot_eq {t : Token} {x : Symbol} (h : t.symbol = x) :
    t.spot = ⟨x, t.origin⟩ := h ▸ rfl

/-! ## Trees -/

namespace Expr

mutual

/-- Whether spots are the text of a tree, each of whose nodes stands where its landmark does. A call
and its arguments have the same landmark. -/
def PlacedBy : Expr → List Spot → Prop
  | atom form text o, s => s = [⟨.atom form text, o⟩]
  | block form lines o, s => s = [⟨.block form lines, o⟩]
  | suffixed form item o, s => ∃ u x v, PlacedBy item u ∧ x.origin = o ∧
      (x :: v).map Spot.symbol = form.symbols ∧ s = u ++ x :: v
  | map item key o, s => ∃ u v x, PlacedBy item u ∧ PlacedBy key v ∧ x.symbol = .mark .rightBrace ∧
      s = u ++ ⟨.mark .leftBrace, o⟩ :: (v ++ [x])
  | call callee arguments o, s => ∃ u v, PlacedBy callee u ∧ PlacedBy arguments v ∧
      arguments.isGroup ∧ arguments.origin = o ∧ s = u ++ v
  | array elements o, s => ∃ u x, SeparatedBy (.mark .comma) none elements u ∧
      x.symbol = .mark .rightBracket ∧ s = ⟨.mark .leftBracket, o⟩ :: (u ++ [x])
  | group items o, s => ∃ u v, SeparatedBy (.mark .comma) none items u ∧
      (v.map Spot.symbol = [.mark .rightParenthesis] ∨
        items ≠ [] ∧ v.map Spot.symbol = [.mark .comma, .mark .rightParenthesis]) ∧
      s = ⟨.mark .leftParenthesis, o⟩ :: (u ++ v)
  | chain op operands o, s => 2 ≤ operands.length ∧ SeparatedBy (.kind op.kind) (some o) operands s
  | unary op operand o, s => ∃ u, PlacedBy operand u ∧ s = ⟨.kind op.kind, o⟩ :: u

/-- Whether spots are the texts of trees with a separator between each two, the first of them at a
given place, if one is given. -/
def SeparatedBy (separator : Symbol) : Option Origin → List Expr → List Spot → Prop
  | _, [], s => s = []
  | _, [e], s => PlacedBy e s
  | first?, e :: es, s =>
    ∃ u x v, PlacedBy e u ∧ x.symbol = separator ∧ (∀ o ∈ first?, x.origin = o) ∧
      SeparatedBy separator none es v ∧ s = u ++ x :: v

end

mutual

/-- The landmarks of all nodes of a tree, from left to right. The landmark of a call is that of its
arguments. -/
def landmarks : Expr → List Spot
  | atom form text o => [⟨.atom form text, o⟩]
  | block form lines o => [⟨.block form lines, o⟩]
  | suffixed form item o => landmarks item ++ (form.symbols.take 1).map (⟨·, o⟩)
  | map item key o => landmarks item ++ ⟨.mark .leftBrace, o⟩ :: landmarks key
  | call callee arguments _ => landmarks callee ++ landmarks arguments
  | array elements o => ⟨.mark .leftBracket, o⟩ :: landmarksAll elements
  | group items o => ⟨.mark .leftParenthesis, o⟩ :: landmarksAll items
  | chain _ [] _ => []
  | chain op (e :: es) o => landmarks e ++ ⟨.kind op.kind, o⟩ :: landmarksAll es
  | unary op operand o => ⟨.kind op.kind, o⟩ :: landmarks operand

/-- The landmarks of all nodes of some trees, from left to right. -/
def landmarksAll : List Expr → List Spot
  | [] => []
  | e :: es => landmarks e ++ landmarksAll es

end

/-! ### Landmarks among tokens -/

mutual

/-- The landmarks of a tree are among its tokens, in their order. -/
theorem landmarks_sublist : (e : Expr) → (s : List Spot) → e.PlacedBy s → e.landmarks.Sublist s
  | atom .., _, h | block .., _, h => h ▸ .refl _
  | suffixed form item o, _, ⟨u, x, v, hu, hx, hv, h⟩ => by
    subst h hx
    rw [landmarks, ← hv]
    exact (landmarks_sublist item u hu).append ((List.nil_sublist v).cons_cons x)
  | map item key o, _, ⟨u, v, x, hu, hv, _, h⟩ => by
    subst h
    exact (landmarks_sublist item u hu).append
      (((landmarks_sublist key v hv).trans (List.sublist_append_left v [x])).cons_cons _)
  | call callee arguments o, _, ⟨u, v, hu, hv, _, _, h⟩ =>
    h ▸ (landmarks_sublist callee u hu).append (landmarks_sublist arguments v hv)
  | array elements o, _, ⟨u, x, hu, _, h⟩ =>
    h ▸ ((landmarksAll_sublist elements none u hu).trans
      (List.sublist_append_left u [x])).cons_cons _
  | group items o, _, ⟨u, v, hu, _, h⟩ =>
    h ▸ ((landmarksAll_sublist items none u hu).trans (List.sublist_append_left u v)).cons_cons _
  | chain op [] o, s, _ => List.nil_sublist s
  | chain op [_] o, _, ⟨h, _⟩ => absurd h (by simp)
  | chain op (e :: f :: es) o, _, ⟨_, u, x, v, hu, hx, ho, hv, h⟩ => by
    obtain rfl : x = ⟨.kind op.kind, o⟩ := by rw [← hx, ← ho o rfl]
    exact h ▸ (landmarks_sublist e u hu).append
      ((landmarksAll_sublist (f :: es) none v hv).cons_cons _)
  | unary op operand o, _, ⟨u, hu, h⟩ => h ▸ (landmarks_sublist operand u hu).cons_cons _

theorem landmarksAll_sublist {separator : Symbol} : (es : List Expr) → (first? : Option Origin) →
    (s : List Spot) → SeparatedBy separator first? es s → (landmarksAll es).Sublist s
  | [], _, s, _ => List.nil_sublist s
  | [e], _, s, h => by simpa [landmarksAll] using landmarks_sublist e s h
  | e :: f :: es, _, _, ⟨u, x, v, hu, _, _, hv, h⟩ =>
    h ▸ (landmarks_sublist e u hu).append ((landmarksAll_sublist (f :: es) none v hv).cons x)

end

/-! ### Lists of trees -/

theorem SeparatedBy.concat {separator : Symbol} {first? : Option Origin} {es : List Expr} {e : Expr}
    {s u : List Spot} {x : Spot} (hs : SeparatedBy separator first? es s) (hn : es ≠ [])
    (hx : x.symbol = separator) (hfirst : es.length = 1 → ∀ o ∈ first?, x.origin = o)
    (hu : e.PlacedBy u) :
    SeparatedBy separator first? (es ++ [e]) (s ++ x :: u) := by
  induction es generalizing first? s with
  | nil => exact absurd rfl hn
  | cons f es ih =>
    cases es with
    | nil => exact ⟨s, x, u, hs, hx, hfirst rfl, hu, rfl⟩
    | cons g es =>
      obtain ⟨v, y, w, hv, hy, ho, hw, rfl⟩ := hs
      exact ⟨v, y, w ++ x :: u, hv, hy, ho, ih hw (by simp) (by simp), by simp⟩

/-- Whether spots are the texts of trees with a comma behind each. -/
def FollowedBy (es : List Expr) (s : List Spot) : Prop :=
  es = [] ∧ s = [] ∨ es ≠ [] ∧ ∃ u x, SeparatedBy (.mark .comma) none es u ∧
    x.symbol = .mark .comma ∧
    s = u ++ [x]

theorem FollowedBy.nil : FollowedBy [] [] := .inl ⟨rfl, rfl⟩

theorem FollowedBy.separated {es : List Expr} {e : Expr} {s u : List Spot} (hs : FollowedBy es s)
    (hu : e.PlacedBy u) : SeparatedBy (.mark .comma) none (es ++ [e]) (s ++ u) := by
  rcases hs with ⟨rfl, rfl⟩ | ⟨hn, v, x, hv, hx, rfl⟩
  · exact hu
  · simpa using hv.concat hn hx (by simp) hu

theorem FollowedBy.concat {es : List Expr} {e : Expr} {s u : List Spot} {x : Spot}
    (hs : FollowedBy es s) (hu : e.PlacedBy u) (hx : x.symbol = .mark .comma) :
    FollowedBy (es ++ [e]) (s ++ u ++ [x]) :=
  .inr ⟨by simp, s ++ u, x, hs.separated hu, hx, rfl⟩

/-- Whether spots are the text of a group without its parentheses, such as the items of a file. -/
def ItemsPlacedBy (e : Expr) (s : List Spot) : Prop :=
  e.isGroup ∧ (SeparatedBy (.mark .comma) none e.items s ∨ FollowedBy e.items s)

theorem ItemsPlacedBy.placed {items : List Expr} {o : Origin} {s : List Spot} {x : Spot}
    (h : (group items o).ItemsPlacedBy s) (hx : x.symbol = .mark .rightParenthesis) :
    (group items o).PlacedBy (⟨.mark .leftParenthesis, o⟩ :: (s ++ [x])) := by
  rcases h.2 with h | ⟨hn, rfl⟩ | ⟨hn, u, y, hu, hy, rfl⟩
  · exact ⟨s, [x], h, .inl (by simp [hx]), rfl⟩
  · exact ⟨[], [x], by rw [show items = [] from hn]; rfl, .inl (by simp [hx]), rfl⟩
  · exact ⟨u, [y, x], hu, .inr ⟨hn, by simp [hx, hy]⟩, by simp⟩

theorem ItemsPlacedBy.landmarks_sublist {e : Expr} {s : List Spot} (h : e.ItemsPlacedBy s) :
    (landmarksAll e.items).Sublist s := by
  rcases h.2 with h | ⟨hn, rfl⟩ | ⟨-, u, x, hu, -, rfl⟩
  · exact landmarksAll_sublist _ _ _ h
  · rw [hn]; exact .slnil
  · exact (landmarksAll_sublist _ _ _ hu).trans (List.sublist_append_left u [x])

/-- A chain stays where it is when it gets another operand, and a new one stands where its operator
does. -/
theorem PlacedBy.join {lhs e : Expr} {u v : List Spot} (hu : lhs.PlacedBy u) (hv : e.PlacedBy v)
    (op : BinaryOp) (o : Origin) : (lhs.join op o e).PlacedBy (u ++ ⟨.kind op.kind, o⟩ :: v) := by
  have hnew : (chain op [lhs, e] o).PlacedBy (u ++ ⟨.kind op.kind, o⟩ :: v) :=
    ⟨Nat.le_refl 2, u, _, v, hu, rfl, fun _ ho => Option.some.inj ho, hv, rfl⟩
  cases lhs with
  | chain op' operands o' =>
    rw [Expr.join]
    split
    · next h =>
      -- The chain has two operands or more, so its first operator is not the one that is added
      -- here.
      subst h
      obtain ⟨hlen, hs⟩ := hu
      exact ⟨by simp; omega, hs.concat (by rintro rfl; simp at hlen) rfl (by omega) hv⟩
    · exact hnew
  | _ => exact hnew

end Expr

/-- Whether spots are the text of a tree that is read as an expression, or as a file of items. A
file stands at the place of its root, which is no landmark of its own. -/
def Goal.PlacedBy (goal : Goal) (root : Origin) (e : Expr) (s : List Spot) : Prop :=
  match goal with
  | .expression => e.PlacedBy s
  | .items => e.ItemsPlacedBy s ∧ e.origin = root

open DocExpr.Expr (FollowedBy)

/-! ## Frames -/

namespace Frame

/-- Whether spots are the text of what has been read of a frame, which will stand where its landmark
does. -/
def PlacedBy : Frame → List Spot → Prop
  | unary op o, s => s = [⟨.kind op.kind, o⟩]
  | chain lhs op o, s => ∃ u, lhs.PlacedBy u ∧ s = u ++ [⟨.kind op.kind, o⟩]
  | array done o, s => ∃ u, FollowedBy done u ∧ s = ⟨.mark .leftBracket, o⟩ :: u
  | group done o, s => ∃ u, FollowedBy done u ∧ s = ⟨.mark .leftParenthesis, o⟩ :: u
  | arguments callee done o, s =>
    ∃ u v, callee.PlacedBy u ∧ FollowedBy done v ∧ s = u ++ ⟨.mark .leftParenthesis, o⟩ :: v
  | key item o, s => ∃ u, item.PlacedBy u ∧ s = u ++ [⟨.mark .leftBrace, o⟩]
  | file done _, s => FollowedBy done s

variable {frame : Frame} {e : Expr} {s u : List Spot} {x : Spot} {k : Kind}

/-- Completing an operator puts the tree where the operator is, or leaves it where a chain is. -/
theorem placed_close (hc : frame.closer? = none) (hs : frame.PlacedBy s) (hu : e.PlacedBy u) :
    (frame.close e).PlacedBy (s ++ u) := by
  cases frame <;> cases hc
  case unary op o => exact ⟨u, hu, by rw [hs]; rfl⟩
  case chain lhs op o =>
    obtain ⟨v, hv, rfl⟩ := hs
    simpa [close] using hv.join hu op o

/-- Ending a frame behind its last part puts the tree where the frame was opened. -/
theorem placed_close_ended (hc : frame.closer? = some k) (hk : k ≠ .eof) (hs : frame.PlacedBy s)
    (hu : e.PlacedBy u) (hx : x.symbol = .kind k) : (frame.close e).PlacedBy (s ++ u ++ [x]) := by
  cases frame <;> cases hc
  case array done o =>
    obtain ⟨v, hv, rfl⟩ := hs
    exact ⟨v ++ u, x, hv.separated hu, hx, by simp⟩
  case group done o =>
    obtain ⟨v, hv, rfl⟩ := hs
    exact Expr.ItemsPlacedBy.placed ⟨rfl, .inl (hv.separated hu)⟩ hx
  case arguments callee done o =>
    obtain ⟨v, w, hv, hw, rfl⟩ := hs
    have hitems : (Expr.group (done ++ [e]) o).ItemsPlacedBy (w ++ u) :=
      ⟨rfl, .inl (hw.separated hu)⟩
    exact ⟨v, _, hv, hitems.placed hx, rfl, rfl, by simp⟩
  case key item o =>
    obtain ⟨v, hv, rfl⟩ := hs
    exact ⟨v, u, x, hv, hu, hx, by simp⟩
  case file => exact absurd rfl hk

/-- Ending a frame where its next part would start puts the tree where the frame was opened. -/
theorem placed_closeEmpty_ended (hc : frame.closer? = some k) (hk : k ≠ .eof) (hm : frame.MayEnd)
    (hs : frame.PlacedBy s) (he : frame.closeEmpty? = some e) (hx : x.symbol = .kind k) :
    e.PlacedBy (s ++ [x]) := by
  cases frame <;> cases hc <;> cases he
  case array done o =>
    obtain rfl := hm
    obtain ⟨v, ⟨-, rfl⟩ | ⟨hn, -⟩, rfl⟩ := hs
    · exact ⟨[], x, rfl, hx, rfl⟩
    · exact absurd rfl hn
  case group done o =>
    obtain ⟨v, hv, rfl⟩ := hs
    exact Expr.ItemsPlacedBy.placed ⟨rfl, .inr hv⟩ hx
  case arguments callee done o =>
    obtain ⟨v, w, hv, hw, rfl⟩ := hs
    have hitems : (Expr.group done o).ItemsPlacedBy w := ⟨rfl, .inr hw⟩
    exact ⟨v, _, hv, hitems.placed hx, rfl, rfl, by simp⟩
  case key item o =>
    obtain ⟨v, hv, rfl⟩ := hs
    exact ⟨v, ⟨.mark .leftBrace, o⟩, [x], hv, rfl, by simp [hx, Suffix.symbols], by simp⟩
  case file => exact absurd rfl hk

end Frame

/-! ## Steps -/

namespace Progress

variable {goal : Goal} {root : Origin}

/-- Whether spots are the text of a stack of frames. The items of a file, which stand at its root,
are below everything else, and a single expression has nothing below it. -/
inductive StackPlaced (root : Origin) : Goal → List Frame → List Spot → Prop where
  | nil : StackPlaced root .expression [] []
  | file {done : List Expr} {s : List Spot} (placed : FollowedBy done s) :
      StackPlaced root .items [.file done root] s
  | cons {goal : Goal} {frame : Frame} {below : List Frame} {s u : List Spot}
      (stack : StackPlaced root goal below s) (placed : frame.PlacedBy u)
      (inner : frame.closer? ≠ some .eof) : StackPlaced root goal (frame :: below) (s ++ u)

/-- Whether spots are the text of a stack with an expression behind it. -/
def BehindPlaced (root : Origin) (goal : Goal) (stack : List Frame) (e : Expr)
    (s : List Spot) : Prop :=
  ∃ u v, StackPlaced root goal stack u ∧ e.PlacedBy v ∧ s = u ++ v

/-- Whether spots are the text of what has been read. -/
def Placed (root : Origin) (goal : Goal) (p : Progress) (s : List Spot) : Prop :=
  match p.phase with
  | .operand => StackPlaced root goal p.stack s
  | .operandOrEnd => StackPlaced root goal p.stack s ∧ ∀ frame ∈ p.stack.head?, frame.MayEnd
  | .behind e => BehindPlaced root goal p.stack e s
  | .bracket item o =>
    ∃ u, BehindPlaced root goal p.stack item u ∧ s = u ++ [⟨.mark .leftBracket, o⟩]
  | .bracketSemicolon item o =>
    ∃ u x, BehindPlaced root goal p.stack item u ∧ x.symbol = .mark .semicolon ∧
      s = u ++ [⟨.mark .leftBracket, o⟩, x]

/-- What a step makes of spots that are the text of what has been read: they are so still with the
token, or they are the text of the accepted tree. -/
def KeepsPlaces (root : Origin) (goal : Goal) (t : Token) (s : List Spot) : Step → Prop
  | .shift next => next.Placed root goal (s ++ [t.spot])
  | .accept e taken => goal.PlacedBy root e s ∧
    (goal = .expression ∧ taken = false ∨ goal = .items ∧ t.kind = .eof)
  | .reject .. => True

variable {t : Token} {e : Expr} {stack below : List Frame} {frame : Frame} {next : Progress}
  {s u v : List Spot}

theorem placed_beginWith (hs : StackPlaced root goal stack s) :
    KeepsPlaces root goal t s (beginWith t stack) := by
  unfold beginWith
  split
  · next op hop =>
    rw [KeepsPlaces, Token.spot_eq (Token.symbol_eq_unary.2 (kind_of_unary? hop))]
    exact .cons hs rfl (by simp [Frame.closer?])
  · split <;> rename_i hk
    · exact ⟨s, [t.spot], hs, by rw [Token.spot_eq (Token.symbol_eq_atom.2 ⟨hk, rfl⟩)]; rfl, rfl⟩
    · exact ⟨s, [t.spot], hs, by rw [Token.spot_eq (Token.symbol_eq_block.2 ⟨hk, rfl⟩)]; rfl, rfl⟩
    · rw [KeepsPlaces, Token.spot_eq (Token.symbol_eq_mark.2 hk)]
      exact ⟨.cons hs ⟨[], .nil, rfl⟩ (by simp [Frame.closer?]), by simp [Frame.MayEnd]⟩
    · rw [KeepsPlaces, Token.spot_eq (Token.symbol_eq_mark.2 hk)]
      exact ⟨.cons hs ⟨[], .nil, rfl⟩ (by simp [Frame.closer?]), by simp [Frame.MayEnd]⟩
    · trivial

theorem placed_openBehind {form : Postfixed} (hk : t.kind.postfixed? = some form)
    (hs : StackPlaced root goal stack u) (hv : e.PlacedBy v) :
    (openBehind t e stack form).Placed root goal (u ++ v ++ [t.spot]) := by
  unfold Kind.postfixed? at hk
  split at hk <;> cases hk <;> rename_i hk <;> rw [Token.spot_eq (Token.symbol_eq_mark.2 hk)]
  · rw [List.append_assoc]
    exact ⟨.cons hs ⟨v, hv, rfl⟩ (by simp [Frame.closer?]), by simp [openBehind, Frame.MayEnd]⟩
  · exact ⟨u ++ v, ⟨u, v, hs, hv, rfl⟩, rfl⟩
  · rw [List.append_assoc]
    exact ⟨.cons hs ⟨v, [], hv, .nil, rfl⟩
      (by simp [Frame.closer?]), by simp [openBehind, Frame.MayEnd]⟩
  · exact ⟨u, _, hs, ⟨v, ⟨.mark .question, t.origin⟩, [], hv, rfl, rfl, rfl⟩, by simp⟩

theorem placed_continue? {level : Nat} (hs : StackPlaced root goal stack u) (hv : e.PlacedBy v)
    (h : continue? level t e stack = some next) : next.Placed root goal (u ++ v ++ [t.spot]) := by
  unfold continue? at h
  split at h
  · next form hform =>
    split at h <;> cases h
    exact placed_openBehind hform hs hv
  · split at h
    · next op hop =>
      split at h <;> cases h
      rw [Token.spot_eq (Token.symbol_eq_binary.2 (kind_of_binary? hop)), List.append_assoc]
      exact .cons hs ⟨v, hv, rfl⟩ (by simp [Frame.closer?])
    · cases h

theorem placed_ended (hc : frame.closer? = some t.kind) (hk : t.kind ≠ .eof)
    (hs : StackPlaced root goal below u) (hv : e.PlacedBy (v ++ [t.spot])) :
    KeepsPlaces root goal t (u ++ v) (frame.ended e below) := by
  have hn : frame.ended e below = .shift ⟨below, .behind e⟩ := by
    cases frame <;> first | rfl | exact absurd (Option.some.inj hc).symm hk
  rw [hn]
  exact ⟨u, _, hs, hv, by simp⟩

theorem placed_afterComma? (hs : StackPlaced root goal (frame :: below) s) (hv : e.PlacedBy v)
    (ht : t.kind = .mark .comma) (h : frame.afterComma? e below = some next) :
    next.Placed root goal (s ++ v ++ [t.spot]) := by
  have hx : t.spot.symbol = .mark .comma := Token.symbol_eq_mark.2 ht
  cases hs with
  | file hu =>
    cases h
    exact ⟨.file (hu.concat hv hx), by simp [Frame.MayEnd]⟩
  | @cons _ _ _ s w hs hu hb =>
    cases frame with
    | array done o =>
      cases h
      obtain ⟨y, hy, rfl⟩ := hu
      have hu : (Frame.array (done ++ [e]) o).PlacedBy _ := ⟨_, hy.concat hv hx, rfl⟩
      simpa [Placed] using hs.cons hu hb
    | group done o =>
      cases h
      obtain ⟨y, hy, rfl⟩ := hu
      have hu : (Frame.group (done ++ [e]) o).PlacedBy _ := ⟨_, hy.concat hv hx, rfl⟩
      simpa [Placed, Frame.MayEnd] using hs.cons hu hb
    | arguments callee done o =>
      cases h
      obtain ⟨y, z, hy, hz, rfl⟩ := hu
      have hu : (Frame.arguments callee (done ++ [e]) o).PlacedBy _ :=
        ⟨y, _, hy, hz.concat hv hx, rfl⟩
      simpa [Placed, Frame.MayEnd] using hs.cons hu hb
    | file => exact absurd rfl hb
    | unary | chain | key => cases h

/-- A token behind an expression: by induction on the stack, whose operators are completed from the
top. -/
theorem placed_resume (least : Nat) (hs : StackPlaced root goal stack u) (hv : e.PlacedBy v) :
    KeepsPlaces root goal t (u ++ v) (resume least t e stack) := by
  induction hs generalizing e v with
  | nil =>
    unfold resume
    split
    · exact placed_continue? .nil hv ‹_›
    · exact ⟨hv, .inl ⟨rfl, rfl⟩⟩
  | @file done s hs =>
    have hstack : StackPlaced root .items [.file done root] s := .file hs
    unfold resume
    split
    · exact placed_continue? hstack hv ‹_›
    · simp only [Frame.closer?]
      split
      · next ht => exact ⟨⟨⟨rfl, .inl (hs.separated hv)⟩, rfl⟩, .inr ⟨rfl, ht⟩⟩
      · split
        · exact placed_afterComma? hstack hv ‹_› rfl
        · trivial
  | @cons goal frame below s w hs hw hb ih =>
    have hstack : StackPlaced root goal (frame :: below) (s ++ w) := .cons hs hw hb
    unfold resume
    split
    · exact placed_continue? hstack hv ‹_›
    · split
      · next hc =>
        -- The same token is behind the operator's tree now, which is placed whatever the powers
        -- are.
        rw [List.append_assoc]
        exact ih (Frame.placed_close hc hw hv)
      · next closer hc =>
        split
        · next ht =>
          subst ht
          have hk : t.kind ≠ .eof := fun h => hb (h ▸ hc)
          rw [List.append_assoc]
          exact placed_ended hc hk hs
            (Frame.placed_close_ended hc hk hw hv (frame.symbol_of_closer? hc))
        · split
          · split
            · exact placed_afterComma? hstack hv ‹_› ‹_›
            · trivial
          · trivial

theorem placed_beginOrEnd (hs : StackPlaced root goal stack s)
    (hm : ∀ frame ∈ stack.head?, frame.MayEnd) :
    KeepsPlaces root goal t s (beginOrEnd t stack) := by
  cases stack with
  | nil => exact placed_beginWith hs
  | cons frame below =>
    simp only [beginOrEnd]
    split
    · next hc =>
      split
      · next e he =>
        cases hs with
        | file hu =>
          cases he
          exact ⟨⟨⟨rfl, .inr hu⟩, rfl⟩, .inr ⟨rfl, (Option.some.inj hc).symm⟩⟩
        | cons hs hw hb =>
          have hk : t.kind ≠ .eof := fun h => hb (h ▸ hc)
          exact placed_ended hc hk hs
            (Frame.placed_closeEmpty_ended hc hk (hm frame rfl) hw he (frame.symbol_of_closer? hc))
      · exact placed_beginWith hs
    · exact placed_beginWith hs

/-- A step keeps the invariant. -/
theorem placed_step (least : Nat) {p : Progress} (hp : p.Placed root goal s) :
    KeepsPlaces root goal t s (p.step least t) := by
  obtain ⟨stack, phase⟩ := p
  unfold step
  split
  · trivial
  · cases phase with
    | operand => exact placed_beginWith hp
    | operandOrEnd => exact placed_beginOrEnd hp.1 hp.2
    | behind e =>
      obtain ⟨u, v, hs, hv, rfl⟩ := hp
      exact placed_resume least hs hv
    | bracket item o =>
      obtain ⟨w, ⟨u, v, hs, hv, rfl⟩, rfl⟩ := hp
      dsimp only
      split
      · next ht => exact ⟨u ++ v, t.spot, ⟨u, v, hs, hv, rfl⟩, Token.symbol_eq_mark.2 ht, by simp⟩
      · split
        · next ht =>
          have hx : t.spot.symbol = .mark .rightBracket := Token.symbol_eq_mark.2 ht
          exact ⟨u, _, hs,
            ⟨v, ⟨.mark .leftBracket, o⟩, [t.spot], hv, rfl, by simp [hx, Suffix.symbols], rfl⟩,
            by simp⟩
        · trivial
    | bracketSemicolon item o =>
      obtain ⟨w, x, ⟨u, v, hs, hv, rfl⟩, hx, rfl⟩ := hp
      dsimp only
      split
      · next ht =>
        have hy : t.spot.symbol = .mark .rightBracket := Token.symbol_eq_mark.2 ht
        exact ⟨u, _, hs,
          ⟨v, ⟨.mark .leftBracket, o⟩, [x, t.spot], hv, rfl, by simp [hx, hy, Suffix.symbols],
          rfl⟩, by simp⟩
      · trivial

end Progress

/-! ## Runs -/

namespace Progress

variable {goal : Goal} {least : Nat} {root finish : Origin} {e : Expr}

/-- The tokens that a run reads for a tree that it accepts are its text. Behind an expression
everything is left, and behind the items of a file there is an end of input. -/
theorem run_placed {p : Progress} {ts : List Token} {s : List Spot} (hp : p.Placed root goal s)
    (h : (p.run least finish ts).result = .ok e) :
    ∃ text rest, ts = text ++ rest ∧ goal.PlacedBy root e (s ++ text.map Token.spot) ∧
      (goal = .expression ∧ (p.run least finish ts).unread = rest ∨
        goal = .items ∧ ∀ t ∈ rest.head?, t.kind = .eof) := by
  induction ts generalizing p s with
  | nil =>
    have hk := placed_step least (t := .eof finish) hp
    rw [run] at h ⊢
    split at h <;> rename_i hstep <;> rw [hstep] at hk <;> cases h
    exact ⟨[], [], rfl, by simpa using hk.1,
      hk.2.imp (fun hg => ⟨hg.1, rfl⟩) fun hg => ⟨hg.1, by simp⟩⟩
  | cons t ts ih =>
    have hk := placed_step least (t := t) hp
    rw [run] at h ⊢
    split at h <;> rename_i hstep <;> rw [hstep] at hk
    · obtain ⟨text, rest, rfl, hs, hg⟩ := ih hk h
      exact ⟨t :: text, rest, rfl, by simpa using hs, hg⟩
    · rw [ParseRun.result_ending] at h
      cases h
      refine ⟨[], t :: ts, rfl, by simpa using hk.1, ?_⟩
      rcases hk.2 with ⟨rfl, rfl⟩ | ⟨rfl, ht⟩
      · exact .inl ⟨rfl, rfl⟩
      · exact .inr ⟨rfl, by simpa using ht⟩
    · rw [ParseRun.result_ending] at h
      cases h

end Progress

/-- Every node of a tree that is read from tokens stands where its landmark does, and the landmarks
are among the tokens, in the same order. The items of a file stand where the first token does. -/
theorem Lookahead.placed_of_read (l : Lookahead) (e : Expr) :
    (l.wholeExpression.result = .ok e → ∃ text rest, l.unread = text ++ rest ∧
      (∀ t ∈ rest.head?, t.kind = .eof) ∧ e.PlacedBy (text.map Token.spot) ∧
      e.landmarks.Sublist (text.map Token.spot)) ∧
    (l.items.result = .ok e → ∃ text rest, l.unread = text ++ rest ∧
      (∀ t ∈ rest.head?, t.kind = .eof) ∧ e.ItemsPlacedBy (text.map Token.spot) ∧
      (Expr.landmarksAll e.items).Sublist (text.map Token.spot) ∧ e.origin = l.peek.origin) := by
  constructor
  · intro h
    obtain ⟨hr, hend⟩ := of_wholeExpression h
    have hstart : Progress.expression.Placed l.peek.origin .expression [] := .nil
    obtain ⟨text, rest, hts, hs, ⟨-, rfl⟩ | ⟨hg, -⟩⟩ := Progress.run_placed hstart hr
    · exact ⟨text, _, hts, hend, hs, e.landmarks_sublist _ hs⟩
    · cases hg
  · intro h
    have hstart : (Progress.items l.peek.origin).Placed l.peek.origin .items [] :=
      ⟨.file .nil, by simp [Progress.items, Frame.MayEnd]⟩
    obtain ⟨text, rest, hts, ⟨hs, ho⟩, ⟨hg, -⟩ | ⟨-, hend⟩⟩ := Progress.run_placed hstart h
    · cases hg
    · exact ⟨text, rest, hts, hend, hs, hs.landmarks_sublist, ho⟩

/-- The tokens of `a + b + f(x)`: the sum stands where its first operator does, and the call and its
arguments where the parenthesis does. -/
theorem Lookahead.placed_of_read_sum :
    let token (k : Kind) (text : String) (column : UInt32) : Token := ⟨k, text, "", 1, column, 1⟩
    let l : Lookahead := ⟨[token (.atom .identifier) "a" 1, token (.mark .plus) "+" 3,
      token (.atom .identifier) "b" 5, token (.mark .plus) "+" 7, token (.atom .identifier) "f" 9,
      token (.mark .leftParenthesis) "(" 10, token (.atom .identifier) "x" 11,
      token (.mark .rightParenthesis) ")" 12], "", 1, 13, 0⟩
    ∃ e, l.wholeExpression.result = .ok e ∧ e.landmarks.Sublist (l.unread.map Token.spot) ∧
      e.landmarks.map (fun x => x.origin.column) = [1, 3, 5, 9, 10, 11] ∧
      e.preorder.map (fun n => n.origin.column) = [3, 1, 5, 10, 9, 10, 11] := by
  intro token l
  refine ⟨_, rfl, ?_, by decide, by decide⟩
  obtain ⟨text, rest, hts, -, -, hmarks⟩ := (Lookahead.placed_of_read l _).1 rfl
  rw [hts, List.map_append]
  exact hmarks.trans (List.sublist_append_left _ _)

end DocExpr
