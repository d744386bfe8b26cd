import ScriptFront.Proofs.Relocation
/-! Two chunks with a semicolon between them. They are read as one chunk, with the items of the
second behind those of the first, unless the second begins with a declaration: a declaration stands
behind anything but a semicolon. -/
namespace ScriptFront.Phrase
open Syntax Phrase.Stream

/-- Where the input ends is the same, however much of it has been read. -/
theorem Stream.IsRest.total {s t : Stream} (h : t.IsRest s) :
    t.next + t.left.length = s.next + s.left.length := by
  obtain ⟨taken, hleft, hnext⟩ := h
  rw [hleft, hnext, List.length_append, Nat.add_assoc]

section Steps
variable {returned : Bool} {s s' t : Stream} {n : TokenIndex} {u : Token} {ts : List Token}
  {item : Item}

theorem items_of_declaration (h : Reading.Declaration s item t) :
    items false s = (items false t).map (item :: ·) := by
  obtain ⟨read, hd, _, hr⟩ := h.found
  rw [items, hd]
  simp only [hr, ok_bind]
  rfl

/-- Where no declaration is next, the items are those behind the semicolons. -/
theorem items_congr (h : (semicolons s).rest = (semicolons s').rest) (hs : declaration? s = none)
    (hs' : declaration? s' = none) : items returned s = items returned s' := by
  rw [items, hs]
  conv => rhs; rw [items, hs']
  generalize semicolons s = p at h
  generalize semicolons s' = p' at h
  obtain ⟨_, r, _⟩ := p
  obtain ⟨_, r', _⟩ := p'
  obtain rfl : r = r' := h
  rfl

theorem declaration?_semicolon : declaration? ⟨n, .operator .semicolon :: ts⟩ = none :=
  declaration?_of_stops (stops_cons.2 (by simp [startsDeclaration]))

/-- A semicolon is skipped where no declaration follows it. -/
theorem items_semicolon (h : Stops (startsDeclaration ·) ⟨n + 1, ts⟩) :
    items returned ⟨n, .operator .semicolon :: ts⟩ = items returned ⟨n + 1, ts⟩ :=
  items_congr (semicolons_cons n ts) declaration?_semicolon (declaration?_of_stops h)

/-- A declaration is no statement, so it is in the wrong place behind a semicolon. -/
theorem items_semicolon_declaration (h : startsDeclaration u) :
    items false ⟨n, .operator .semicolon :: u :: ts⟩ = .error (.unexpectedToken (n + 1) u) := by
  have hstop : Stops (· = .operator .semicolon) ⟨n + 1, u :: ts⟩ := by
    refine stops_cons.2 ?_
    rintro rfl
    cases h
  have hrest : (semicolons ⟨n, .operator .semicolon :: u :: ts⟩).rest = ⟨n + 1, u :: ts⟩ :=
    (semicolons_cons n _).trans (semicolons_of_stops hstop)
  have hstmt : statement ⟨n + 1, u :: ts⟩ = .error (.unexpectedToken (n + 1) u) := by
    unfold startsDeclaration at h
    split at h
    iterate 4
      · rw [statement]
        rfl
    · cases h
  rw [items, declaration?_semicolon]
  generalize semicolons _ = p at hrest
  obtain ⟨_, r, _⟩ := p
  obtain rfl : r = _ := hrest
  simp only [token?_cons, hstmt]
  rfl

/-- Semicolons in front of a semicolon are skipped. -/
theorem items_semicolons {s : Stream} (h : (semicolons s).rest.left = []) :
    items returned (s.relocate 0 (.operator .semicolon :: ts)) =
      items returned ⟨s.next + s.left.length, .operator .semicolon :: ts⟩ := by
  cases hs : operator? .semicolon s with
  | none =>
    rw [semicolons_of_stops (operator?_none_iff.1 hs)] at h
    rw [Stream.relocate, h, Nat.zero_add]
    rfl
  | some q =>
    obtain ⟨_, s₁, h₁⟩ := q
    obtain ⟨n, us, hn, rfl⟩ := operator?_some hs
    rw [hn, semicolons_cons] at h
    have hstop : Stops (startsDeclaration ·) ⟨n + 1, us⟩ :=
      stops_of_semicolons (by simp [Stops, h]) (by simp [startsDeclaration])
    have hnext : Stops (startsDeclaration ·) ⟨0 + n + 1, us ++ .operator .semicolon :: ts⟩ :=
      hstop.relocate (afterSemicolon_cons.apart (by simp [startsDeclaration]))
    rw [hn]
    refine ((items_semicolon hnext).trans (items_semicolons h)).trans ?_
    rw [List.length_cons, Nat.add_right_comm, Nat.add_assoc]
termination_by s.left.length
decreasing_by exact Stream.Follows.length_lt ‹_›

end Steps

section Concatenation
variable {as bs : List Token} {a b : Chunk}

/-- The items of the first chunk are read as before. -/
theorem items_before {returned : Bool} {s : Stream} (h : Reading.Items returned s a)
    (hreturned : returned = false) (hlast : ∀ stmt, .statement stmt ∈ a → stmt.isLast = false) :
    items false (s.relocate 0 (.operator .semicolon :: bs)) =
      (items false ⟨s.next + s.left.length, .operator .semicolon :: bs⟩).map (a ++ ·) := by
  have hid : (fun i : TokenIndex => 0 + i) = id := funext Nat.zero_add
  have hus : AfterSemicolon (.operator .semicolon :: bs) := afterSemicolon_cons
  induction h with
  | done h =>
    rw [items_semicolons h]
    cases items false _ <;> rfl
  | @declaration s item s₁ more h _ ih =>
    have hr := h.relocate (k := 0) (hus.apart (by decide))
    rw [hid, Item.mapAnchor_id] at hr
    obtain ⟨_, -, hf, -⟩ := h.found
    rw [items_of_declaration hr, ih rfl fun stmt hm => hlast stmt (List.mem_cons_of_mem _ hm),
      hf.isRest.total]
    cases items false _ <;> rfl
  | @statement s stmt s₁ more h _ ih =>
    have hfirst := hlast stmt List.mem_cons_self
    obtain ⟨n, u, us, hs, -⟩ := h.head
    obtain ⟨hf, -⟩ := statement_yields_iff.2 h
    have hr := h.relocate (k := 0) (hus.apart (by decide)) (by simp [hfirst])
    rw [hid, Stmt.mapAnchor_id, ← semicolons_relocate (hs ▸ apart_cons)] at hr
    rw [items_of_statement hr, hfirst,
      ih hfirst fun stmt hm => hlast stmt (List.mem_cons_of_mem _ hm),
      (hf.isRest.trans (semicolons s).rest_isRest).total]
    cases items false _ <;> rfl

theorem chunk_semicolon (ha : chunk as = .ok a)
    (hlast : ∀ stmt, .statement stmt ∈ a → stmt.isLast = false) :
    chunk (as ++ .operator .semicolon :: bs) =
      (items false ⟨as.length, .operator .semicolon :: bs⟩).map (a ++ ·) := by
  have h : items false ((Stream.ofTokens as).relocate 0 (.operator .semicolon :: bs)) = _ :=
    items_before (reads_items ha) rfl hlast
  simp only [Stream.relocate, Stream.ofTokens, Nat.zero_add] at h
  exact h

/-- Two chunks with a semicolon between them are one chunk, unless the second begins with a
declaration. -/
theorem chunk_concat (ha : chunk as = .ok a) (hb : chunk bs = .ok b)
    (hlast : ∀ stmt, .statement stmt ∈ a → stmt.isLast = false) :
    ((∀ u ∈ bs.head?, ¬ startsDeclaration u) →
      chunk (as ++ .operator .semicolon :: bs) =
        .ok (a ++ b.map (·.mapAnchor (as.length + 1 + ·)))) ∧
    ∀ u ∈ bs.head?, startsDeclaration u →
      chunk (as ++ .operator .semicolon :: bs) = .error (.unexpectedToken (as.length + 1) u) := by
  rw [chunk_semicolon ha hlast]
  constructor
  · intro hd
    have hr := accepts_items ((reads_items hb).relocate (k := as.length + 1))
    simp only [Stream.relocate, Stream.ofTokens, List.append_nil, Nat.add_zero] at hr
    rw [items_semicolon hd, hr]
    rfl
  · intro u hu hd
    obtain ⟨us, rfl⟩ := List.head?_eq_some_iff.1 hu
    rw [items_semicolon_declaration hd]
    rfl

/-- `local x` -/
def localTokens : List Token := [.keyword .local_, .name "x"]

def localItem : Item := .statement (.localNames 0 [⟨1, "x", none⟩] [])

theorem chunk_localTokens : chunk localTokens = .ok [localItem] := by
  have h : Reading.Statement ⟨0, localTokens⟩ (.localNames 0 [⟨1, "x", none⟩] []) ⟨2, []⟩ :=
    .localNames (.last (.plain stops_nil) stops_nil) stops_nil
  rw [← semicolons_of_stops (s := ⟨0, localTokens⟩) (stops_cons.2 (by simp))] at h
  refine accepts_items (.statement h (.done ?_))
  rw [semicolons_of_stops stops_nil]

/-- `class A end` -/
def classTokens : List Token := [.keyword .class_, .name "A", .keyword .end_]

def classItem : Item := .object (.ofClass ⟨1, "A", [], []⟩)

theorem chunk_classTokens : chunk classTokens = .ok [classItem] := by
  have h : Reading.Declaration ⟨0, classTokens⟩ classItem ⟨3, []⟩ :=
    .ofClass (.none (stops_cons.2 (by simp))) .none
  refine accepts_items (.declaration h (.done ?_))
  rw [semicolons_of_stops stops_nil]

theorem chunk_concat_class :
    chunk classTokens = .ok [classItem] ∧ chunk localTokens = .ok [localItem] ∧
      (∀ stmt, Item.statement stmt ∈ [classItem] → stmt.isLast = false) ∧
      chunk (classTokens ++ .operator .semicolon :: localTokens) =
        .ok [classItem, .statement (.localNames 4 [⟨5, "x", none⟩] [])] := by
  have hlast : ∀ stmt, Item.statement stmt ∈ [classItem] → stmt.isLast = false := by
    simp [classItem]
  have h := (chunk_concat chunk_classTokens chunk_localTokens hlast).1
    (by simp [localTokens, startsDeclaration])
  refine ⟨chunk_classTokens, chunk_localTokens, hlast, ?_⟩
  simpa [classTokens, localItem, Item.mapAnchor, Stmt.mapAnchor, TypedName.mapAnchor,
    mapAnchorExprs] using h

/-- `local x; class A end` is no chunk. -/
theorem class_not_after_semicolon :
    chunk localTokens = .ok [localItem] ∧ chunk classTokens = .ok [classItem] ∧
      (∀ stmt, Item.statement stmt ∈ [localItem] → stmt.isLast = false) ∧
      chunk (localTokens ++ .operator .semicolon :: classTokens) =
        .error (.unexpectedToken 3 (.keyword .class_)) ∧
      chunk (localTokens ++ .operator .semicolon :: classTokens) ≠
        .ok ([localItem] ++ [classItem].map (·.mapAnchor (localTokens.length + 1 + ·))) := by
  have hlast : ∀ stmt, Item.statement stmt ∈ [localItem] → stmt.isLast = false := by
    simp [localItem, Stmt.isLast]
  have h : chunk (localTokens ++ .operator .semicolon :: classTokens) =
      .error (.unexpectedToken 3 (.keyword .class_)) := by
    rw [chunk_semicolon chunk_localTokens hlast, classTokens, items_semicolon_declaration rfl]
    rfl
  refine ⟨chunk_localTokens, chunk_classTokens, hlast, h, ?_⟩
  rw [h]
  intro hc
  cases hc

end Concatenation

end ScriptFront.Phrase
