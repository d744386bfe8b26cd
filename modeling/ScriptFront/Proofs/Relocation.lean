import ScriptFront.Proofs.ChunkReading
import ScriptFront.Proofs.BodyRespelling
/-! What was read is read again where the same tokens stand further on, with anchors that are as
much greater. More tokens may follow: what was read up to the very end must not go on with the first
of them. -/
namespace ScriptFront.Phrase
open Syntax Phrase.Stream

/-- The same tokens `k` places further on, with `us` behind them. -/
def Stream.relocate (k : Nat) (us : List Token) (s : Stream) : Stream :=
  ⟨k + s.next, s.left ++ us⟩

/-- With `us` behind it, nothing that satisfies `p` is next in a stream that was at its end. -/
def Stream.Apart (p : Token → Prop) (us : List Token) (s : Stream) : Prop :=
  s.left = [] → ∀ u ∈ us.head?, ¬ p u

/-- Nothing but a semicolon may be next. -/
def AfterSemicolon (us : List Token) : Prop := ∀ u ∈ us.head?, u = .operator .semicolon

theorem afterSemicolon_cons {us : List Token} : AfterSemicolon (.operator .semicolon :: us) := by
  simp [AfterSemicolon]

section Streams
variable {k : Nat} {us vs : List Token} {s t : Stream} {p q : Token → Prop}

theorem AfterSemicolon.apart (h : AfterSemicolon us) (hp : ¬ p (.operator .semicolon)) :
    s.Apart p us := by
  intro _ u hu hu'
  rw [h u hu] at hu'
  exact hp hu'

namespace Stream

theorem apart_of_ne_nil (h : s.left ≠ []) : s.Apart p us := fun he => absurd he h

theorem apart_cons {n : TokenIndex} {u : Token} {ts : List Token} :
    Apart p us ⟨n, u :: ts⟩ := apart_of_ne_nil (List.cons_ne_nil _ _)

theorem apart_nil : s.Apart p [] := by simp [Apart]

theorem Apart.mono (h : s.Apart p us) (hq : ∀ u, q u → p u) : s.Apart q us :=
  fun hs u hu hu' => h hs u hu (hq u hu')

/-- What is at its end has nothing left further on. -/
theorem IsRest.left_eq_nil (h : t.IsRest s) (hs : s.left = []) : t.left = [] := by
  have hlength := h.length_le
  rw [hs, List.length_nil, Nat.le_zero] at hlength
  exact List.length_eq_zero_iff.1 hlength

theorem Follows.ne_nil (h : t.Follows s) : s.left ≠ [] := by
  intro hs
  have hlength := h.length_lt
  rw [hs] at hlength
  cases hlength

theorem Follows.left_eq_nil {u : Token} (h : t.Follows s) (hs : s.left = [u]) : t.left = [] := by
  have hlength := h.length_lt
  rw [hs, List.length_singleton, Nat.lt_one_iff] at hlength
  exact List.length_eq_zero_iff.1 hlength

theorem Apart.before (h : t.Apart p us) (ht : t.IsRest s) : s.Apart p us :=
  fun hs => h (ht.left_eq_nil hs)

theorem After.relocate (h : After vs s t) : After vs (s.relocate k us) (t.relocate k us) := by
  constructor
  · rw [Stream.relocate, h.1, List.append_assoc, Stream.relocate]
  · rw [Stream.relocate, h.2, Stream.relocate, Nat.add_assoc]

theorem Stops.relocate (h : s.Stops p) (hs : s.Apart p us) : (s.relocate k us).Stops p := by
  obtain ⟨n, _ | ⟨u, ts⟩⟩ := s
  · exact hs rfl
  · exact h

end Stream

theorem semicolons_relocate {s : Stream}
    (h : (semicolons s).rest.Apart (· = .operator .semicolon) us) :
    (semicolons (s.relocate k us)).rest = (semicolons s).rest.relocate k us := by
  cases hs : operator? .semicolon s with
  | none =>
    have hstop := operator?_none_iff.1 hs
    rw [semicolons_of_stops hstop] at h ⊢
    exact semicolons_of_stops (hstop.relocate h)
  | some q =>
    obtain ⟨_, s₁, h₁⟩ := q
    obtain ⟨n, ts, hn, rfl⟩ := operator?_some hs
    rw [hn, semicolons_cons] at h ⊢
    exact (semicolons_cons (k + n) (ts ++ us)).trans (semicolons_relocate h)
termination_by s.left.length
decreasing_by exact Stream.Follows.length_lt ‹_›

/-- Two tokens that are next were next before, if the second is not the first of those put
behind. -/
theorem Stream.pair_of_relocate {n : TokenIndex} {u v : Token} {ts : List Token} (hs : s.left ≠ [])
    (hv : s.left = [u] → ∀ w ∈ us.head?, w ≠ v) (h : s.relocate k us = ⟨n, u :: v :: ts⟩) :
    ∃ m ts, s = ⟨m, u :: v :: ts⟩ := by
  obtain ⟨m, _ | ⟨a, _ | ⟨b, us'⟩⟩⟩ := s
  · exact absurd rfl hs
  · have hus' : a :: us = u :: v :: ts := congrArg Stream.left h
    obtain ⟨rfl, rfl⟩ := List.cons.inj hus'
    exact absurd rfl (hv rfl v rfl)
  · have hus' : a :: b :: (us' ++ us) = u :: v :: ts := congrArg Stream.left h
    cases hus'
    exact ⟨m, us', rfl⟩

theorem fieldName?_relocate (hs : s.left ≠ [])
    (he : ∀ w, s.left = [.name w] → ∀ u ∈ us.head?, u ≠ .operator .equal)
    (h : fieldName? s = none) : fieldName? (s.relocate k us) = none := by
  cases hr : fieldName? (s.relocate k us) with
  | none => rfl
  | some p =>
    obtain ⟨w, r, hr'⟩ := p
    obtain ⟨n, ts, hn, -⟩ := fieldName?_some hr
    obtain ⟨m, ts, rfl⟩ := Stream.pair_of_relocate hs (he w) hn
    obtain ⟨_, hf⟩ := fieldName?_cons m w ts
    cases h.symm.trans hf

theorem typeLabel?_relocate (hs : s.left ≠ [])
    (hc : ∀ w, s.left = [.name w] → ∀ u ∈ us.head?, u ≠ .operator .colon)
    (h : typeLabel? s = none) : typeLabel? (s.relocate k us) = none := by
  cases hr : typeLabel? (s.relocate k us) with
  | none => rfl
  | some p =>
    obtain ⟨w, r, hr'⟩ := p
    obtain ⟨n, ts, hn, -⟩ := typeLabel?_some hr
    obtain ⟨m, ts, rfl⟩ := Stream.pair_of_relocate hs (hc w) hn
    obtain ⟨_, hl⟩ := typeLabel?_cons m w ts
    cases h.symm.trans hl

end Streams

section Types
variable {k : Nat} {f : TokenIndex → TokenIndex}

theorem spelling_mapAnchor (type : TypeExpr) : (type.mapAnchor f).spelling = type.spelling := by
  induction type with
  | name | member => rfl
  | optional i t ih | array i t ih => simp [TypeExpr.mapAnchor, TypeExpr.spelling, ih]
  | dictionary i k v ihk ihv => simp [TypeExpr.mapAnchor, TypeExpr.spelling, ihk, ihv]

theorem goesOnType_mapAnchor (type : TypeExpr) :
    goesOnType (type.mapAnchor f) = goesOnType type := by
  cases type <;> rfl

theorem place_mapAnchor (n : TokenIndex) (type : TypeExpr) :
    (type.mapAnchor f).place n = type.place n := by
  induction type generalizing n with
  | name | member => rfl
  | optional i t ih | array i t ih => simp only [TypeExpr.mapAnchor, TypeExpr.place, ih]
  | dictionary i k v ihk ihv =>
    simp only [TypeExpr.mapAnchor, TypeExpr.place, ihk, ihv, spelling_mapAnchor]

theorem place_add (n : TokenIndex) (type : TypeExpr) :
    type.place (k + n) = (type.place n).mapAnchor (k + ·) := by
  induction type generalizing n with
  | name | member => rfl
  | optional i t ih => simp only [TypeExpr.mapAnchor, TypeExpr.place, ih]
  | array i t ih => simp only [TypeExpr.mapAnchor, TypeExpr.place, ← ih, Nat.add_assoc]
  | dictionary i key v ihk ihv =>
    simp only [TypeExpr.mapAnchor, TypeExpr.place, ← ihk, ← ihv, Nat.add_assoc]

end Types

namespace Reading
variable {k : Nat} {us : List Token} {s t : Stream}

theorem annotation_relocate {type : TypeExpr} (h : Annotation s type t)
    (ht : t.Apart (joinsType ·) us) :
    Annotation (s.relocate k us) (type.mapAnchor (k + ·)) (t.relocate k us) := by
  obtain ⟨ha, hp, hstop⟩ := typeExpr_yields_iff.1 h
  refine typeExpr_yields_iff.2 ⟨?_, ?_, ?_⟩
  · rw [spelling_mapAnchor]
    exact ha.relocate
  · rw [place_mapAnchor, Stream.relocate, place_add, hp]
  · rw [goesOnType_mapAnchor]
    exact hstop.relocate (ht.mono fun _ => joinsType_of_goesOnType)

section Lists
variable {α : Type} {Item : Stream → α → Stream → Prop} {g : α → α} {p : Token → Prop}

theorem Listed.relocate {as : List α} (h : Listed Item s as t)
    (hcomma : t.Apart (· = .operator .comma) us) (ht : t.Apart p us)
    (item : ∀ {s t a}, Item s a t → t.Apart p us →
      Item (s.relocate k us) (g a) (t.relocate k us)) :
    Listed Item (s.relocate k us) (as.map g) (t.relocate k us) := by
  induction h with
  | last h hstop => exact .last (item h ht) (hstop.relocate hcomma)
  | more h _ ih => exact .more (item h apart_cons) (ih hcomma ht)

theorem Clause.relocate {as : List α} (h : Clause Item s as t)
    (hjoins : t.Apart (joinsNames ·) us) (ht : t.Apart p us)
    (item : ∀ {s t a}, Item s a t → t.Apart p us →
      Item (s.relocate k us) (g a) (t.relocate k us)) :
    Clause Item (s.relocate k us) (as.map g) (t.relocate k us) := by
  cases h with
  | list h => exact .list (h.relocate (hjoins.mono (by rintro _ rfl; rfl)) ht item)
  | none hstop => exact .none (hstop.relocate (hjoins.mono (by rintro _ rfl; rfl)))

theorem Given.relocate {a : Option α} (h : Given Item s a t)
    (hequal : t.Apart (· = .operator .equal) us) (ht : t.Apart p us)
    (item : ∀ {s t a}, Item s a t → t.Apart p us →
      Item (s.relocate k us) (g a) (t.relocate k us)) :
    Given Item (s.relocate k us) (a.map g) (t.relocate k us) := by
  cases h with
  | item h => exact .item (item h ht)
  | none hstop => exact .none (hstop.relocate hequal)

/-- Every member has something behind it, at least the `end`. -/
theorem Members.left_ne_nil {as : List α} (h : Members Item s as t)
    (item : ∀ {s t a}, Item s a t → s.left ≠ []) : s.left ≠ [] := by
  cases h with
  | none => exact List.cons_ne_nil _ _
  | more h _ => exact item h

theorem Members.relocate {as : List α} (h : Members Item s as t)
    (left_ne_nil : ∀ {s t a}, Item s a t → s.left ≠ [])
    (item : ∀ {s t a}, Item s a t → t.left ≠ [] →
      Item (s.relocate k us) (g a) (t.relocate k us)) :
    Members Item (s.relocate k us) (as.map g) (t.relocate k us) := by
  induction h with
  | none => exact .none
  | more h h' ih => exact .more (item h (h'.left_ne_nil left_ne_nil)) ih

end Lists

theorem TypedName.relocate {p : Syntax.TypedName} (h : TypedName s p t)
    (ht : t.Apart (joinsNames ·) us) :
    TypedName (s.relocate k us) (p.mapAnchor (k + ·)) (t.relocate k us) := by
  cases h with
  | typed h => exact .typed (annotation_relocate h (ht.mono fun _ => joinsNames_of_joinsType))
  | plain hstop => exact .plain (hstop.relocate (ht.mono (by rintro _ rfl; rfl)))

theorem typedNames_relocate {ps : List Syntax.TypedName} (h : Listed TypedName s ps t)
    (ht : t.Apart (joinsNames ·) us) :
    Listed TypedName (s.relocate k us) (ps.map (·.mapAnchor (k + ·))) (t.relocate k us) :=
  h.relocate (ht.mono (by rintro _ rfl; rfl)) ht TypedName.relocate

theorem Parameters.relocate {ps : List Syntax.TypedName} {isVariadic : Bool}
    (h : Parameters s ps isVariadic t) :
    Parameters (s.relocate k us) (ps.map (·.mapAnchor (k + ·))) isVariadic (t.relocate k us) := by
  induction h with
  | variadic => exact .variadic
  | last h => exact .last (h.relocate apart_cons)
  | more h _ ih => exact .more (h.relocate apart_cons) ih

theorem returns_relocate {types : List TypeExpr} (h : Clause Annotation s types t)
    (ht : t.Apart (joinsNames ·) us) :
    Clause Annotation (s.relocate k us) (types.map (·.mapAnchor (k + ·))) (t.relocate k us) :=
  h.relocate ht (ht.mono fun _ => joinsNames_of_joinsType) annotation_relocate

theorem Signature.relocate {sig : Syntax.Signature} (h : Signature s sig t)
    (ht : t.Apart (joinsNames ·) us) :
    Signature (s.relocate k us) (sig.mapAnchor (k + ·)) (t.relocate k us) := by
  cases h with
  | none h => exact .none (returns_relocate h ht)
  | list h h' => exact .list h.relocate (returns_relocate h' ht)

theorem Path.relocate {ws : List String} {isMethod : Bool} (h : Path s ws isMethod t)
    (ht : t.Apart (joinsNames ·) us) :
    Path (s.relocate k us) ws isMethod (t.relocate k us) := by
  induction h with
  | field _ ih => exact .field (ih ht)
  | method => exact .method
  | last hstop =>
    refine .last (hstop.relocate (ht.mono ?_))
    rintro _ (rfl | rfl)
    · rfl
    · rfl

theorem TypedTarget.relocate {p : Syntax.TypedName} (h : TypedTarget s p t) :
    TypedTarget (s.relocate k us) (p.mapAnchor (k + ·)) (t.relocate k us) := by
  cases h with
  | intro h hu => exact .intro (annotation_relocate h apart_cons) hu

theorem TypeTest.relocate {anchor : TokenIndex} {e e' : Expr} (h : TypeTest anchor e s e' t)
    (ht : t.Apart (joinsExpression ·) us) :
    TypeTest (k + anchor) (e.mapAnchor (k + ·)) (s.relocate k us) (e'.mapAnchor (k + ·))
      (t.relocate k us) := by
  cases h with
  | is h =>
    rw [Expr.mapAnchor]
    exact .is (annotation_relocate h (ht.mono fun _ => joinsExpression_of_joinsType))
  | none hstop => exact .none (hstop.relocate (ht.mono (by rintro _ rfl; rfl)))

/-- A block goes on to the keyword that closes it. -/
theorem Block.left_ne_nil {closers : Closers} {returned : Bool} {body : Syntax.Block} {c : Keyword}
    (h : Block closers returned s body c t) : s.left ≠ [] := by
  intro hs
  have hrest : (semicolons s).rest = s := semicolons_of_stops (by simp [Stops, hs])
  cases h with
  | close h _ =>
    rw [hrest] at h
    rw [h] at hs
    cases hs
  | cons h _ =>
    rw [hrest] at h
    obtain ⟨n, u, us, rfl, -⟩ := h.head
    cases hs

theorem RoutineBody.left_ne_nil {r : Routine} (h : RoutineBody s r t) : s.left ≠ [] := by
  cases h with
  | intro h _ =>
    cases h
    all_goals exact List.cons_ne_nil _ _

theorem single_mapAnchor {f : TokenIndex → TokenIndex} {n : TokenIndex} {u : Token} {e : Expr}
    (h : singleToken? n u = some e) : singleToken? (f n) u = some (e.mapAnchor f) := by
  unfold singleToken? at h ⊢
  split at h
  all_goals first
    | cases h
      simp only [Expr.mapAnchor, Literal.mapAnchor]
    | cases h

theorem apart_suffix (h : t.Apart (joinsExpression ·) us) : t.Apart (startsSuffix ·) us :=
  h.mono fun _ => joinsExpression_of_startsSuffix

theorem apart_expression (h : t.Apart (joinsExpressions ·) us) : t.Apart (joinsExpression ·) us :=
  h.mono fun _ => joinsExpressions_of_joinsExpression

theorem apart_comma (h : t.Apart (joinsExpressions ·) us) :
    t.Apart (· = .operator .comma) us := h.mono (by rintro _ rfl; rfl)

theorem apart_expressions (h : t.Apart (joinsStatement ·) us) :
    t.Apart (joinsExpressions ·) us := h.mono fun _ => joinsStatement_of_joinsExpressions

mutual

theorem Expression.relocate {floor : Nat} {s t : Stream} {e : Expr} :
    Expression floor s e t → t.Apart (joinsExpression ·) us →
    Expression floor (s.relocate k us) (e.mapAnchor (k + ·)) (t.relocate k us)
  | .intro h₁ h₂ h₃, ht =>
    have ht₂ := ht.before h₃.leaves.isRest
    .intro (h₁.relocate (ht₂.before h₂.leaves.isRest)) (h₂.relocate ht₂) (h₃.relocate ht)

theorem Operand.relocate {s t : Stream} {e : Expr} :
    Operand s e t → t.Apart (joinsExpression ·) us →
    Operand (s.relocate k us) (e.mapAnchor (k + ·)) (t.relocate k us)
  | .unary hu h, ht => by
    rw [Expr.mapAnchor]
    exact .unary hu (h.relocate ht)
  | .single hu, _ => .single (single_mapAnchor hu)
  | .table h, _ => by
    rw [Expr.mapAnchor]
    exact .table h.relocate
  | .routine h, _ => by
    rw [Expr.mapAnchor]
    exact .routine h.relocate
  | .chain h, ht => .chain (h.relocate (apart_suffix ht))

theorem Operations.relocate {floor : Nat} {anchor : TokenIndex}
    {left e : Expr} {s t : Stream} :
    Operations floor anchor left s e t → t.Apart (joinsExpression ·) us →
    Operations floor (k + anchor) (left.mapAnchor (k + ·)) (s.relocate k us) (e.mapAnchor (k + ·))
      (t.relocate k us)
  | .more hu hl h h', ht => by
    have hr := h'.relocate ht
    rw [Expr.mapAnchor] at hr
    exact .more hu hl (h.relocate (ht.before h'.leaves.isRest)) hr
  | .done hstop, ht => .done (hstop.relocate (ht.mono fun _ => joinsExpression_of_bindsAbove))

theorem Chain.relocate {s t : Stream} {e : Expr} :
    Chain s e t → t.Apart (startsSuffix ·) us →
    Chain (s.relocate k us) (e.mapAnchor (k + ·)) (t.relocate k us)
  | .name h, ht => by
    have hr := h.relocate ht
    rw [Expr.mapAnchor] at hr
    exact .name hr
  | .parenthesized h h', ht => by
    have hr := h'.relocate ht
    rw [Expr.mapAnchor] at hr
    exact .parenthesized (h.relocate apart_cons) hr

theorem Suffixes.relocate {anchor : TokenIndex} {e whole : Expr} {s t : Stream} :
    Suffixes anchor e s whole t → t.Apart (startsSuffix ·) us →
    Suffixes (k + anchor) (e.mapAnchor (k + ·)) (s.relocate k us) (whole.mapAnchor (k + ·))
      (t.relocate k us)
  | .element h h', ht => by
    have hr := h'.relocate ht
    rw [Expr.mapAnchor, Index.mapAnchor] at hr
    exact .element (h.relocate apart_cons) hr
  | .field h, ht => by
    have hr := h.relocate ht
    rw [Expr.mapAnchor, Index.mapAnchor] at hr
    exact .field hr
  | .method h h', ht => by
    have hr := h'.relocate ht
    rw [Expr.mapAnchor, Call.mapAnchor] at hr
    exact .method h.relocate hr
  | .call h h', ht => by
    have hr := h'.relocate ht
    rw [Expr.mapAnchor, Call.mapAnchor] at hr
    exact .call h.relocate hr
  | .done hstop, ht => .done (hstop.relocate ht)

theorem Arguments.relocate {s t : Stream} {args : List Expr} :
    Arguments s args t →
    Arguments (s.relocate k us) (mapAnchorExprs (k + ·) args) (t.relocate k us)
  | .none => .none
  | .list h => .list (h.relocate apart_cons)
  | .table h => by
    simp only [mapAnchorExprs, Expr.mapAnchor]
    exact .table h.relocate
  | .string => by
    simp only [mapAnchorExprs, Expr.mapAnchor, Literal.mapAnchor]
    exact .string

theorem Expressions.relocate {s t : Stream} {es : List Expr} :
    Expressions s es t → t.Apart (joinsExpressions ·) us →
    Expressions (s.relocate k us) (mapAnchorExprs (k + ·) es) (t.relocate k us)
  | .intro h h', ht => by
    rw [mapAnchorExprs]
    exact .intro (h.relocate (apart_expression (ht.before h'.leaves.isRest))) (h'.relocate ht)

theorem MoreExpressions.relocate {s t : Stream} {es : List Expr} :
    MoreExpressions s es t → t.Apart (joinsExpressions ·) us →
    MoreExpressions (s.relocate k us) (mapAnchorExprs (k + ·) es) (t.relocate k us)
  | .more h, ht => .more (h.relocate ht)
  | .done hstop, ht => .done (hstop.relocate (apart_comma ht))

theorem TableItems.relocate {s t : Stream}
    {xs : List Syntax.TableItem} : TableItems s xs t →
    TableItems (s.relocate k us) (mapAnchorItems (k + ·) xs) (t.relocate k us)
  | .none => .none
  | .more h hu h' => by
    rw [mapAnchorItems]
    exact .more (h.relocate apart_cons apart_cons) hu h'.relocate
  | .last h => by
    simp only [mapAnchorItems]
    exact .last (h.relocate apart_cons apart_cons)

theorem TableItem.relocate {s t : Stream} {x : Syntax.TableItem} :
    TableItem s x t → t.Apart (joinsExpression ·) us → t.Apart (· = .operator .equal) us →
    TableItem (s.relocate k us) (x.mapAnchor (k + ·)) (t.relocate k us)
  | .keyed h h', ht, _ => by
    rw [TableItem.mapAnchor]
    exact .keyed (h.relocate apart_cons) (h'.relocate ht)
  | .named h, ht, _ => by
    rw [TableItem.mapAnchor]
    exact .named (h.relocate ht)
  | .positional hf h, ht, he => by
    rw [TableItem.mapAnchor]
    have hfollows := h.offers.follows
    refine .positional (fieldName?_relocate hfollows.ne_nil ?_ hf) (h.relocate ht)
    exact fun w hw => he (hfollows.left_eq_nil hw)

theorem RoutineBody.relocate {s t : Stream} {r : Routine} :
    RoutineBody s r t → RoutineBody (s.relocate k us) (r.mapAnchor (k + ·)) (t.relocate k us)
  | .intro h h' => by
    rw [Routine.mapAnchor]
    exact .intro (h.relocate (apart_of_ne_nil h'.left_ne_nil)) h'.relocate

theorem Block.relocate {closers : Closers} {returned : Bool}
    {s t : Stream} {body : Syntax.Block} {c : Keyword} : Block closers returned s body c t →
    Block closers returned (s.relocate k us) (mapAnchorBlock (k + ·) body) c (t.relocate k us)
  | .close h hc => by
    rw [mapAnchorBlock]
    refine .close ?_ hc
    rw [semicolons_relocate (h ▸ apart_cons), h]
    rfl
  | .cons (a := stmt) h h' => by
    obtain ⟨n, u, vs, hs, -⟩ := h.head
    have hr := h'.relocate
    have ht := h'.left_ne_nil
    rw [← isLast_mapAnchor (k + ·)] at hr
    rw [mapAnchorBlock]
    refine .cons ?_ hr
    rw [semicolons_relocate (hs ▸ apart_cons)]
    exact h.relocate (apart_of_ne_nil ht) fun _ => apart_of_ne_nil ht

/-- A return at the very end would take a semicolon after it. -/
theorem Statement.relocate {s t : Stream} {stmt : Stmt} :
    Statement s stmt t → t.Apart (joinsStatement ·) us →
    (stmt.isLast = true → t.Apart (· = .operator .semicolon) us) →
    Statement (s.relocate k us) (stmt.mapAnchor (k + ·)) (t.relocate k us)
  | .scope h, _, _ => by
    rw [Stmt.mapAnchor]
    exact .scope h.relocate
  | .whileLoop h h', _, _ => by
    rw [Stmt.mapAnchor]
    exact .whileLoop (h.relocate apart_cons) h'.relocate
  | .repeatLoop h h', ht, _ => by
    rw [Stmt.mapAnchor]
    exact .repeatLoop h.relocate (h'.relocate (apart_expression (apart_expressions ht)))
  | .choice h, _, _ => by
    rw [mapAnchor_choice]
    exact .choice h.relocate
  | .forLoop h, _, _ => .forLoop h.relocate
  | .routine h h', _, _ => by
    rw [Stmt.mapAnchor]
    exact .routine (h.relocate (apart_of_ne_nil h'.left_ne_nil)) h'.relocate
  | .localRoutine h, _, _ => by
    rw [Stmt.mapAnchor]
    exact .localRoutine h.relocate
  | .localValues h h', ht, _ => by
    rw [Stmt.mapAnchor]
    exact .localValues (typedNames_relocate h apart_cons) (h'.relocate (apart_expressions ht))
  | .localNames h hstop, ht, _ => by
    simp only [Stmt.mapAnchor, mapAnchorExprs]
    refine .localNames (typedNames_relocate h (ht.mono fun _ => joinsStatement_of_joinsNames)) ?_
    exact hstop.relocate (ht.mono (by rintro _ rfl; rfl))
  | .returnEnded h, _, _ => by
    rw [Stmt.mapAnchor]
    exact .returnEnded (h.relocate apart_cons)
  | .returnValues h hstop, ht, hend => by
    rw [Stmt.mapAnchor]
    exact .returnValues (h.relocate ht) (hstop.relocate (hend rfl))
  | .breakLoop, _, _ => by
    rw [Stmt.mapAnchor]
    exact .breakLoop
  | .goto, _, _ => by
    rw [Stmt.mapAnchor]
    exact .goto
  | .label, _, _ => by
    rw [Stmt.mapAnchor]
    exact .label
  | .assignmentOrCall h, ht, _ => .assignmentOrCall (h.relocate ht)

theorem ReturnValues.relocate {s t : Stream} {es : List Expr} :
    ReturnValues s es t → t.Apart (joinsStatement ·) us →
    ReturnValues (s.relocate k us) (mapAnchorExprs (k + ·) es) (t.relocate k us)
  | .list h h', ht => by
    rw [mapAnchorExprs]
    have ht' := apart_expressions ht
    exact .list (h.relocate (apart_expression (ht'.before h'.leaves.isRest))) (h'.relocate ht')
  | .none hstop, ht => .none (hstop.relocate (ht.mono fun _ => joinsStatement_of_startsExpression))

theorem Branches.relocate {s t : Stream} {list : List Branch}
    {otherwise : Option Syntax.Block} : Branches s list otherwise t →
    Branches (s.relocate k us) (mapAnchorBranches (k + ·) list)
      (otherwise.map (mapAnchorBlock (k + ·))) (t.relocate k us)
  | .elseif h h' h'' => by
    rw [mapAnchorBranches, Branch.mapAnchor]
    exact .elseif (h.relocate apart_cons) h'.relocate h''.relocate
  | .otherwise h h' h'' => by
    simp only [mapAnchorBranches, Branch.mapAnchor]
    exact .otherwise (h.relocate apart_cons) h'.relocate h''.relocate
  | .last h h' hi he => by
    simp only [mapAnchorBranches, Branch.mapAnchor]
    exact .last (h.relocate apart_cons) h'.relocate hi he

theorem ForLoop.relocate {anchor : TokenIndex} {s t : Stream}
    {loop : Stmt} : ForLoop anchor s loop t →
    ForLoop (k + anchor) (s.relocate k us) (loop.mapAnchor (k + ·)) (t.relocate k us)
  | .numeric h₁ h₂ h₃ h₄ h₅ => by
    rw [mapAnchor_numericFor]
    have h₃' : Stream.Apart (joinsExpressions ·) us _ := apart_cons.before h₄.leaves.isRest
    exact .numeric (typedNames_relocate h₁ apart_cons) (h₂.relocate apart_cons)
      (h₃.relocate (apart_expression h₃')) (h₄.relocate apart_cons) h₅.relocate
  | .generic h₁ h₂ h₃ => by
    rw [Stmt.mapAnchor]
    exact .generic (typedNames_relocate h₁ apart_cons) (h₂.relocate apart_cons) h₃.relocate

theorem StepValue.relocate {s t : Stream} {step : Option Expr} :
    StepValue s step t → t.Apart (joinsExpressions ·) us →
    StepValue (s.relocate k us) (step.map (·.mapAnchor (k + ·))) (t.relocate k us)
  | .step h, ht => .step (h.relocate (apart_expression ht))
  | .none hstop, ht => .none (hstop.relocate (apart_comma ht))

theorem AssignmentOrCall.relocate {s t : Stream} {stmt : Stmt} :
    AssignmentOrCall s stmt t → t.Apart (joinsStatement ·) us →
    AssignmentOrCall (s.relocate k us) (stmt.mapAnchor (k + ·)) (t.relocate k us)
  | .typed h h', ht => by
    have hr := h'.relocate (apart_expressions ht)
    rw [Target.mapAnchor] at hr
    exact .typed h.relocate hr
  | .assign h htarget h', ht => by
    refine .assign (h.relocate ?_) (by rw [target?_mapAnchor, htarget]; rfl)
      (h'.relocate (apart_expressions ht))
    exact apart_suffix (apart_expression ((apart_expressions ht).before h'.yields.isRest))
  | .update h hu htarget h', ht => by
    rw [Stmt.mapAnchor]
    exact .update (h.relocate apart_cons) hu (by rw [target?_mapAnchor, htarget]; rfl)
      (h'.relocate (apart_expression (apart_expressions ht)))
  | .call h hc hstop, ht => by
    rw [Stmt.mapAnchor]
    refine .call (h.relocate (apart_suffix (apart_expression (apart_expressions ht))))
      (by rw [call?_mapAnchor, hc]; rfl) (hstop.relocate ?_)
    exact ht.mono fun _ => joinsStatement_of_startsAssignment

theorem Assignment.relocate {anchor : TokenIndex} {first : Target}
    {s t : Stream} {stmt : Stmt} :
    Assignment anchor first s stmt t → t.Apart (joinsExpressions ·) us →
    Assignment (k + anchor) (first.mapAnchor (k + ·)) (s.relocate k us) (stmt.mapAnchor (k + ·))
      (t.relocate k us)
  | .intro h h', ht => by
    rw [Stmt.mapAnchor, mapAnchorTargets]
    exact .intro (h.relocate apart_cons) (h'.relocate ht)

theorem MoreTargets.relocate {s t : Stream} {targets : List Target} :
    MoreTargets s targets t → t.Apart (joinsExpressions ·) us →
    MoreTargets (s.relocate k us) (mapAnchorTargets (k + ·) targets) (t.relocate k us)
  | .more h h', ht => by
    rw [mapAnchorTargets]
    have ht' := apart_expression (ht.before h'.leaves.isRest)
    exact .more (h.relocate (apart_suffix ht')) (h'.relocate ht)
  | .done hstop, ht => .done (hstop.relocate (apart_comma ht))

theorem OneTarget.relocate {s t : Stream} {target : Target} :
    OneTarget s target t → t.Apart (startsSuffix ·) us →
    OneTarget (s.relocate k us) (target.mapAnchor (k + ·)) (t.relocate k us)
  | .typed h, _ => by
    rw [Target.mapAnchor]
    exact .typed h.relocate
  | .chain h htarget, ht => .chain (h.relocate ht) (by rw [target?_mapAnchor, htarget]; rfl)

end

theorem Conformance.relocate {c : Syntax.Conformance} (h : Conformance s c t) :
    Conformance (s.relocate k us) (c.mapAnchor (k + ·)) (t.relocate k us) := by
  cases h
  exact .intro

theorem conformances_relocate {cs : List Syntax.Conformance} (h : Clause Conformance s cs t)
    (ht : t.Apart (joinsNames ·) us) :
    Clause Conformance (s.relocate k us) (cs.map (·.mapAnchor (k + ·))) (t.relocate k us) :=
  h.relocate ht ht fun h _ => h.relocate

theorem ClassMember.left_ne_nil {m : Syntax.ClassMember} (h : ClassMember s m t) :
    s.left ≠ [] := by
  cases h
  all_goals exact List.cons_ne_nil _ _

theorem ClassMember.relocate {m : Syntax.ClassMember} (h : ClassMember s m t)
    (ht : t.Apart (joinsExpression ·) us) (he : t.Apart (· = .operator .equal) us) :
    ClassMember (s.relocate k us) (m.mapAnchor (k + ·)) (t.relocate k us) := by
  cases h with
  | override h => exact .override (h.relocate ht)
  | method h => exact .method h.relocate
  | property h h' =>
    have hs := (ht.before (initialValue_leaves_iff.2 h').isRest).mono
      fun _ => joinsExpression_of_joinsType
    exact .property (annotation_relocate h hs) (h'.relocate he ht Expression.relocate)

theorem ProtocolMember.left_ne_nil {m : Syntax.ProtocolMember} (h : ProtocolMember s m t) :
    s.left ≠ [] := by
  cases h
  all_goals exact List.cons_ne_nil _ _

theorem ProtocolMember.relocate {m : Syntax.ProtocolMember} (h : ProtocolMember s m t)
    (ht : t.Apart (joinsNames ·) us) :
    ProtocolMember (s.relocate k us) (m.mapAnchor (k + ·)) (t.relocate k us) := by
  cases h with
  | method h => exact .method (h.relocate ht)
  | property h =>
    exact .property (annotation_relocate h (ht.mono fun _ => joinsNames_of_joinsType))

theorem AssociatedType.relocate {a : Syntax.AssociatedType} (h : AssociatedType s a t)
    (ht : t.Apart (joinsNames ·) us) :
    AssociatedType (s.relocate k us) (a.mapAnchor (k + ·)) (t.relocate k us) := by
  have ht' := ht.mono fun _ => joinsNames_of_joinsType
  cases h with
  | labelled h => exact .labelled (annotation_relocate h ht')
  | plain hl h =>
    have hfollows := Yields.follows h
    have hcolon := ht.mono (q := (· = .operator .colon)) (by rintro _ rfl; rfl)
    refine .plain (typeLabel?_relocate hfollows.ne_nil ?_ hl) (annotation_relocate h ht')
    exact fun w hw => hcolon (hfollows.left_eq_nil hw)

theorem AssociatedTypes.relocate {as : List Syntax.AssociatedType} (h : AssociatedTypes s as t) :
    AssociatedTypes (s.relocate k us) (as.map (·.mapAnchor (k + ·))) (t.relocate k us) := by
  induction h with
  | last h => exact .last (h.relocate apart_cons)
  | more h _ ih => exact .more (h.relocate apart_cons) ih

theorem Payload.relocate {as : List Syntax.AssociatedType} (h : Payload s as t)
    (ht : t.Apart (· = .operator .roundLeft) us) :
    Payload (s.relocate k us) (as.map (·.mapAnchor (k + ·))) (t.relocate k us) := by
  cases h with
  | empty => exact .empty
  | list h => exact .list h.relocate
  | none hstop => exact .none (hstop.relocate ht)

theorem Literal.relocate {l : Syntax.Literal} (h : Literal s l t) :
    Literal (s.relocate k us) (l.mapAnchor (k + ·)) (t.relocate k us) := by
  cases h with
  | number => exact .number
  | negative => exact .negative
  | string => exact .string
  | true => exact .true
  | false => exact .false

theorem EnumCase.relocate {c : Syntax.EnumCase} (h : EnumCase s c t)
    (ht : t.Apart (· = .operator .roundLeft) us) (he : t.Apart (· = .operator .equal) us) :
    EnumCase (s.relocate k us) (c.mapAnchor (k + ·)) (t.relocate k us) := by
  cases h with
  | intro h h' =>
    have hs := ht.before (rawValue_leaves_iff.2 h').isRest
    exact .intro (h.relocate hs) (h'.relocate he he fun h _ => h.relocate)

theorem EnumCases.relocate {cs : List Syntax.EnumCase} (h : EnumCases s cs t) :
    EnumCases (s.relocate k us) (cs.map (·.mapAnchor (k + ·))) (t.relocate k us) := by
  induction h with
  | none => exact .none
  | more h _ ih => exact .more (h.relocate apart_cons apart_cons) ih
  | last h => exact .last (h.relocate apart_cons apart_cons)

theorem EnumCases.left_ne_nil {cs : List Syntax.EnumCase} (h : EnumCases s cs t) :
    s.left ≠ [] := by
  cases h with
  | none => exact List.cons_ne_nil _ _
  | more h _ | last h =>
    cases h
    exact List.cons_ne_nil _ _

theorem Declaration.relocate {item : Item} (h : Declaration s item t)
    (ht : t.Apart (joinsType ·) us) :
    Declaration (s.relocate k us) (item.mapAnchor (k + ·)) (t.relocate k us) := by
  cases h with
  | ofClass h h' =>
    have hs := h'.left_ne_nil ClassMember.left_ne_nil
    exact .ofClass (conformances_relocate h (apart_of_ne_nil hs))
      (h'.relocate ClassMember.left_ne_nil fun h ht =>
        h.relocate (apart_of_ne_nil ht) (apart_of_ne_nil ht))
  | ofProtocol h h' =>
    have hs := h'.left_ne_nil ProtocolMember.left_ne_nil
    exact .ofProtocol (conformances_relocate h (apart_of_ne_nil hs))
      (h'.relocate ProtocolMember.left_ne_nil fun h ht => h.relocate (apart_of_ne_nil ht))
  | ofEnum h h' =>
    exact .ofEnum (conformances_relocate h (apart_of_ne_nil h'.left_ne_nil)) h'.relocate
  | typeAlias h => exact .typeAlias (annotation_relocate h ht)

/-- A whole chunk further on; nothing may follow it. -/
theorem Items.relocate {returned : Bool} {c : Chunk} (h : Items returned s c) :
    Items returned (s.relocate k []) (c.map (·.mapAnchor (k + ·))) := by
  induction h with
  | done h =>
    refine .done ?_
    rw [semicolons_relocate apart_nil, Stream.relocate, h]
    rfl
  | declaration h _ ih => exact .declaration (h.relocate apart_nil) ih
  | @statement s stmt _ _ h _ ih =>
    rw [← isLast_mapAnchor (k + ·)] at ih
    refine .statement ?_ ih
    rw [semicolons_relocate apart_nil]
    exact h.relocate apart_nil fun _ => apart_nil

end Reading

end ScriptFront.Phrase
