import ScriptFront.Proofs.BodyRespelling
import ScriptFront.Proofs.ChunkReading
/-! Declarations and chunks are read again where they are spelled. -/
namespace ScriptFront.Phrase
open Syntax Phrase.Stream

/-- What the members of declarations and the items of chunks start with, or what closes them. -/
def startsPart : Token → Bool
  | .name _ | .keyword .default_ | .keyword .function_ | .keyword .end_ => true
  | _ => false

theorem stops_of_startsPart {s : Stream} (h : s.Starts startsPart) :
    s.Stops (joinsExpression ·) ∧ s.Stops (joinsNames ·) ∧ s.Stops (· = .operator .equal) := by
  obtain ⟨n, u, us, rfl, hu⟩ := h
  rw [stops_cons, stops_cons, stops_cons]
  unfold startsPart at hu
  split at hu
  case h_5 => cases hu
  all_goals simp [joinsExpression, startsSuffix, BinaryOp.ofToken?, joinsNames, joinsType]

theorem not_joinsStatement_of_startsDeclaration {u : Token} (h : startsDeclaration u) :
    ¬ joinsStatement u := by
  unfold startsDeclaration at h
  split at h
  all_goals first
    | decide
    | cases h

namespace Reading

theorem Conformance.again {s t : Stream} {c : Syntax.Conformance} (h : Conformance s c t) :
    Again c.spelling (Conformance.mapAnchor forget) Conformance c (fun _ => True) := by
  intro s' t' hs _
  cases h
  simp only [Conformance.spelling, after_cons_iff, after_nil_iff] at hs
  obtain ⟨n, ts, rfl, rfl⟩ := hs
  exact ⟨_, .intro, rfl⟩

theorem conformances_again {s t : Stream} {cs : List Syntax.Conformance}
    (h : Clause Conformance s cs t) : Again (clause (.operator .colon) (cs.map Conformance.spelling))
      (·.map (Conformance.mapAnchor forget)) (Clause Conformance) cs (EndsAs (joinsNames ·) t) :=
  h.again fun h => h.again.mono fun _ _ => trivial

/-- The value behind `=` is read again if such values are. -/
theorem Given.again {α β : Type} {Item : Stream → α → Stream → Prop} {spelling : α → List Token}
    {view : α → β} {ends : Stream → Prop} {s t : Stream} {a? : Option α} (h : Given Item s a? t)
    (again : ∀ {s a}, Item s a t → Again (spelling a) view Item a ends) :
    Again (clause (.operator .equal) (a?.toList.map spelling)) (·.map view) (Given Item) a?
      (fun t => ends t ∧ t.Stops (· = .operator .equal)) := by
  intro s' t' hs ht
  cases h with
  | item h =>
    simp only [Option.toList, List.map_cons, List.map_nil, clause, commas, separated_singleton,
      after_cons_iff] at hs
    obtain ⟨n, ts, rfl, hs⟩ := hs
    obtain ⟨a', h', he⟩ := again h hs ht.1
    exact ⟨_, .item h', by simp only [Option.map_some, he]⟩
  | none _ =>
    obtain rfl := after_nil_iff.1 hs
    exact ⟨_, .none ht.2, rfl⟩

theorem Given.stops {α : Type} {Item : Stream → α → Stream → Prop} {p : Token → Prop}
    {s t : Stream} {a? : Option α} (h : Given Item s a? t) (ht : t.Stops p)
    (hq : ¬ p (.operator .equal)) : s.Stops p := by
  cases h with
  | item _ => exact stops_cons.2 hq
  | none _ => exact ht

/-- Members are read again if each is, in front of what a member starts with. -/
theorem Members.again {α β : Type} {Item : Stream → α → Stream → Prop} {spelling : α → List Token}
    {view : α → β} {s t : Stream} {as : List α} (h : Members Item s as t)
    (again : ∀ {s t a}, Item s a t → Again (spelling a) view Item a (Stream.Starts startsPart))
    (head : ∀ {s t a}, Item s a t → s.Starts startsPart) :
    ∀ ⦃s' t'⦄, After (as.flatMap spelling ++ [.keyword .end_]) s' t' → s'.Starts startsPart ∧
      ∃ as', Members Item s' as' t' ∧ as'.map view = as.map view := by
  induction h with
  | none =>
    intro s' t' hs
    simp only [List.flatMap_nil, List.nil_append, after_cons_iff, after_nil_iff] at hs
    obtain ⟨n, ts, rfl, rfl⟩ := hs
    exact ⟨.intro rfl, _, .none, rfl⟩
  | more h _ ih =>
    intro s' t' hs
    rw [List.flatMap_cons, List.append_assoc, after_append_iff] at hs
    obtain ⟨r, hs, hr⟩ := hs
    obtain ⟨hb, as', hm, hes⟩ := ih hr
    obtain ⟨a', h', he⟩ := again h hs hb
    exact ⟨head h', _, .more h' hm, by simp only [List.map_cons, he, hes]⟩

theorem ClassMember.head {s t : Stream} {m : Syntax.ClassMember} (h : ClassMember s m t) :
    s.Starts startsPart := by
  cases h with
  | override _ => exact .intro rfl
  | method _ => exact .intro rfl
  | property _ _ => exact .intro rfl

theorem ProtocolMember.head {s t : Stream} {m : Syntax.ProtocolMember}
    (h : ProtocolMember s m t) : s.Starts startsPart := by
  cases h with
  | method _ => exact .intro rfl
  | property _ => exact .intro rfl

theorem ClassMember.again {s t : Stream} {m : Syntax.ClassMember} (h : ClassMember s m t) :
    Again m.spelling (ClassMember.mapAnchor forget) ClassMember m (Stream.Starts startsPart) := by
  intro s' t' hs ht
  obtain ⟨hx, hn, hq⟩ := stops_of_startsPart ht
  cases h with
  | override h =>
    simp only [ClassMember.spelling, after_cons_iff] at hs
    obtain ⟨n, ts, rfl, m, us, heq, k, vs, heq', hs⟩ := hs
    cases heq
    cases heq'
    obtain ⟨v', h', he⟩ := h.again hs hx.endsAs
    exact ⟨_, .override h', by simp only [ClassMember.mapAnchor, he, forget]⟩
  | method h =>
    simp only [ClassMember.spelling, after_cons_iff] at hs
    obtain ⟨n, ts, rfl, m, us, heq, hs⟩ := hs
    cases heq
    obtain ⟨r', h', he⟩ := h.again hs trivial
    exact ⟨_, .method h', by simp only [ClassMember.mapAnchor, he, forget]⟩
  | property h h' =>
    simp only [ClassMember.spelling, List.cons_append, after_cons_iff, after_append_iff] at hs
    obtain ⟨n, ts, rfl, m, us, heq, r, hs, hr⟩ := hs
    cases heq
    obtain ⟨initial', h', hi⟩ := h'.again Expression.again hr ⟨hx.endsAs, hq⟩
    obtain ⟨type', h, he⟩ := annotation_again' h hs (h'.stops hn (by decide)).endsAs
    exact ⟨_, .property h h', by simp only [ClassMember.mapAnchor, he, hi, forget]⟩

theorem ProtocolMember.again {s t : Stream} {m : Syntax.ProtocolMember}
    (h : ProtocolMember s m t) :
    Again m.spelling (ProtocolMember.mapAnchor forget) ProtocolMember m
      (Stream.Starts startsPart) := by
  intro s' t' hs ht
  obtain ⟨hx, hn, -⟩ := stops_of_startsPart ht
  cases h with
  | method h =>
    simp only [ProtocolMember.spelling, after_cons_iff] at hs
    obtain ⟨n, ts, rfl, m, us, heq, hs⟩ := hs
    cases heq
    obtain ⟨sig', h', he⟩ := h.again hs hn.endsAs
    exact ⟨_, .method h', by simp only [ProtocolMember.mapAnchor, he, forget]⟩
  | property h =>
    simp only [ProtocolMember.spelling, after_cons_iff] at hs
    obtain ⟨n, ts, rfl, m, us, heq, hs⟩ := hs
    cases heq
    obtain ⟨type', h', he⟩ := annotation_again' h hs hn.endsAs
    exact ⟨_, .property h', by simp only [ProtocolMember.mapAnchor, he, forget]⟩

/-- What stands behind an associated type. -/
def endsAssociated : Token → Bool
  | .operator .comma | .operator .roundRight => true
  | _ => false

theorem stops_of_endsAssociated {s : Stream} (h : s.Starts endsAssociated) :
    s.Stops (joinsType ·) ∧ s.Stops (· = .operator .colon) := by
  obtain ⟨n, u, us, rfl, hu⟩ := h
  rw [stops_cons, stops_cons]
  unfold endsAssociated at hu
  split at hu
  case h_3 => cases hu
  all_goals simp [joinsType]

theorem AssociatedType.again {s t : Stream} {a : Syntax.AssociatedType}
    (h : AssociatedType s a t) :
    Again a.spelling (AssociatedType.mapAnchor forget) AssociatedType a
      (Stream.Starts endsAssociated) := by
  intro s' t' hs ht
  obtain ⟨hx, hc⟩ := stops_of_endsAssociated ht
  cases h with
  | labelled h =>
    simp only [AssociatedType.spelling, List.cons_append, List.nil_append, after_cons_iff] at hs
    obtain ⟨n, ts, rfl, m, us, heq, hs⟩ := hs
    cases heq
    obtain ⟨type', h', he⟩ := annotation_again h hs hx.endsAs
    exact ⟨_, .labelled h', by simp only [AssociatedType.mapAnchor, he]⟩
  | plain _ h =>
    rw [AssociatedType.spelling, List.nil_append] at hs
    obtain ⟨type', h', he⟩ := annotation_again h hs hx.endsAs
    refine ⟨_, .plain ?_ h', by simp only [AssociatedType.mapAnchor, he]⟩
    cases hl : typeLabel? s' with
    | none => rfl
    | some p =>
      obtain ⟨w, s₁, h₁⟩ := p
      obtain ⟨n, ts, rfl, -⟩ := typeLabel?_some hl
      obtain rfl := spelling_name hs (by simp) (by simp)
      exact (stops_cons.1 hc rfl).elim

theorem AssociatedTypes.ne_nil {s t : Stream} {as : List Syntax.AssociatedType}
    (h : AssociatedTypes s as t) : as ≠ [] := by
  cases h <;> simp

theorem AssociatedTypes.again {s t : Stream} {as : List Syntax.AssociatedType}
    (h : AssociatedTypes s as t) :
    Again (commas (as.map AssociatedType.spelling) ++ [.operator .roundRight])
      (·.map (AssociatedType.mapAnchor forget)) AssociatedTypes as (fun _ => True) := by
  induction h with
  | last h =>
    intro s' t' hs _
    simp only [List.map_cons, List.map_nil, commas, separated_singleton, after_append_iff,
      after_cons_iff, after_nil_iff] at hs
    obtain ⟨r, hs, n, ts, rfl, rfl⟩ := hs
    obtain ⟨a', h', he⟩ := h.again hs (.intro rfl)
    exact ⟨_, .last h', by simp only [List.map_cons, List.map_nil, he]⟩
  | more h hm ih =>
    intro s' t' hs _
    rw [List.map_cons, commas, separated_cons _ _ _ (by simp [hm.ne_nil]), List.append_assoc,
      after_append_iff] at hs
    obtain ⟨r, hs, hr⟩ := hs
    obtain ⟨n, ts, rfl, hr'⟩ := after_cons_iff.1 hr
    obtain ⟨a', h', he⟩ := h.again hs (.intro rfl)
    obtain ⟨as', hm', hes⟩ := ih hr' trivial
    exact ⟨_, .more h' hm', by simp only [List.map_cons, he, hes]⟩

/-- How the associated types of an enum case are spelled. -/
def spelledPayload : List Syntax.AssociatedType → List Token
  | [] => []
  | list =>
    .operator .roundLeft :: (commas (list.map AssociatedType.spelling) ++ [.operator .roundRight])

theorem spelledPayload_of_ne_nil {as : List Syntax.AssociatedType} (h : as ≠ []) :
    spelledPayload as = .operator .roundLeft ::
      (commas (as.map AssociatedType.spelling) ++ [.operator .roundRight]) := by
  cases as with
  | nil => exact absurd rfl h
  | cons a as => rfl

theorem spelling_enumCase (c : Syntax.EnumCase) : c.spelling = .name c.name ::
    (spelledPayload c.associated ++
      clause (.operator .equal) (c.rawValue?.toList.map Literal.spelling)) := by
  obtain ⟨i, w, _ | ⟨a, as⟩, raw⟩ := c <;> rfl

/-- Empty brackets behind the name of an enum case are left out. -/
theorem Payload.again {s t : Stream} {as : List Syntax.AssociatedType} (h : Payload s as t) :
    Again (spelledPayload as) (·.map (AssociatedType.mapAnchor forget)) Payload as
      (Stream.Stops (· = .operator .roundLeft)) := by
  intro s' t' hs ht
  cases h with
  | empty =>
    obtain rfl := after_nil_iff.1 hs
    exact ⟨_, .none ht, rfl⟩
  | list h =>
    rw [spelledPayload_of_ne_nil h.ne_nil] at hs
    obtain ⟨n, ts, rfl, hs'⟩ := after_cons_iff.1 hs
    obtain ⟨as', h', he⟩ := h.again hs' trivial
    exact ⟨_, .list h', he⟩
  | none _ =>
    obtain rfl := after_nil_iff.1 hs
    exact ⟨_, .none ht, rfl⟩

/-- A number with a minus sign is read again as one number. -/
theorem Literal.again {s t : Stream} {l : Syntax.Literal} (h : Literal s l t) :
    Again l.spelling (Literal.mapAnchor forget) Literal l (fun _ => True) := by
  intro s' t' hs _
  cases h
  all_goals
    simp only [Literal.spelling, after_cons_iff, after_nil_iff] at hs
    obtain ⟨n, ts, rfl, rfl⟩ := hs
  · exact ⟨_, .number, rfl⟩
  · exact ⟨_, .number, rfl⟩
  · exact ⟨_, .string, rfl⟩
  · exact ⟨_, .true, rfl⟩
  · exact ⟨_, .false, rfl⟩

/-- What stands between an enum case and the next, or behind the last. -/
def endsCase : Token → Bool
  | .operator .comma | .keyword .end_ => true
  | _ => false

theorem stops_of_endsCase {s : Stream} (h : s.Starts endsCase) :
    s.Stops (· = .operator .roundLeft) ∧ s.Stops (· = .operator .equal) := by
  obtain ⟨n, u, us, rfl, hu⟩ := h
  rw [stops_cons, stops_cons]
  constructor
  · rintro rfl
    cases hu
  · rintro rfl
    cases hu

theorem EnumCase.again {s t : Stream} {c : Syntax.EnumCase} (h : EnumCase s c t) :
    Again c.spelling (EnumCase.mapAnchor forget) EnumCase c (Stream.Starts endsCase) := by
  intro s' t' hs ht
  obtain ⟨hb, hq⟩ := stops_of_endsCase ht
  cases h with
  | intro h h' =>
    simp only [spelling_enumCase, after_cons_iff, after_append_iff] at hs
    obtain ⟨n, ts, rfl, r, hs, hr⟩ := hs
    obtain ⟨raw', h', he⟩ := h'.again Literal.again hr ⟨trivial, hq⟩
    obtain ⟨as', h, ha⟩ := h.again hs (h'.stops hb (by simp))
    exact ⟨_, .intro h h', by simp only [EnumCase.mapAnchor, ha, he, forget]⟩

theorem EnumCase.head {s t : Stream} {c : Syntax.EnumCase} (h : EnumCase s c t) :
    s.Starts startsPart := by
  cases h with
  | intro _ _ => exact .intro rfl

theorem EnumCases.again {s t : Stream} {cs : List Syntax.EnumCase} (h : EnumCases s cs t) :
    ∀ ⦃s' t'⦄, After (commas (cs.map EnumCase.spelling) ++ [.keyword .end_]) s' t' →
      s'.Starts startsPart ∧ ∃ cs', EnumCases s' cs' t' ∧
        cs'.map (EnumCase.mapAnchor forget) = cs.map (EnumCase.mapAnchor forget) := by
  induction h with
  | none =>
    intro s' t' hs
    simp only [List.map_nil, commas, separated, List.nil_append, after_cons_iff,
      after_nil_iff] at hs
    obtain ⟨n, ts, rfl, rfl⟩ := hs
    exact ⟨.intro rfl, _, .none, rfl⟩
  | @more _ _ _ _ cs _ h _ ih =>
    intro s' t' hs
    cases cs with
    | nil =>
      simp only [List.map_cons, List.map_nil, commas, separated_singleton, after_append_iff,
        after_cons_iff, after_nil_iff] at hs
      obtain ⟨r, hs, n, ts, rfl, rfl⟩ := hs
      obtain ⟨c', h', he⟩ := h.again hs (.intro rfl)
      exact ⟨h'.head, _, .last h', by simp only [List.map_cons, List.map_nil, he]⟩
    | cons c cs =>
      rw [List.map_cons, commas, separated_cons _ _ _ (by simp), List.append_assoc,
        after_append_iff] at hs
      obtain ⟨r, hs, hr⟩ := hs
      obtain ⟨n, ts, rfl, hr'⟩ := after_cons_iff.1 hr
      obtain ⟨c', h', he⟩ := h.again hs (.intro rfl)
      obtain ⟨-, cs', hm', hes⟩ := ih hr'
      exact ⟨h'.head, _, .more h' hm', by rw [List.map_cons, List.map_cons, he, hes]⟩
  | last h =>
    intro s' t' hs
    simp only [List.map_cons, List.map_nil, commas, separated_singleton, after_append_iff,
      after_cons_iff, after_nil_iff] at hs
    obtain ⟨r, hs, n, ts, rfl, rfl⟩ := hs
    obtain ⟨c', h', he⟩ := h.again hs (.intro rfl)
    exact ⟨h'.head, _, .last h', by simp only [List.map_cons, List.map_nil, he]⟩

theorem after_declarationSpelling {k : Keyword} {w : String} {cs : List Syntax.Conformance}
    {parts : List Token} {s t : Stream} (h : After (declarationSpelling k w cs parts) s t) :
    ∃ n ts r, s = ⟨n, .keyword k :: .name w :: ts⟩ ∧
      After (clause (.operator .colon) (cs.map Conformance.spelling)) ⟨n + 1 + 1, ts⟩ r ∧
      After (parts ++ [.keyword .end_]) r t := by
  rw [declarationSpelling, List.append_assoc, List.cons_append, List.cons_append] at h
  obtain ⟨n, ts, rfl, h₁⟩ := after_cons_iff.1 h
  obtain ⟨m, us, heq, h₂⟩ := after_cons_iff.1 h₁
  cases heq
  obtain ⟨r, hs, hr⟩ := after_append_iff.1 h₂
  exact ⟨n, us, r, rfl, hs, hr⟩

theorem Declaration.again {s t : Stream} {item : Item} (h : Declaration s item t) :
    Again item.spelling (Item.mapAnchor forget) Declaration item
      (Stream.Stops (joinsNames ·)) := by
  intro s' t' hs ht
  cases h with
  | ofClass h h' =>
    obtain ⟨n, ts, r, rfl, hs, hr⟩ := after_declarationSpelling hs
    obtain ⟨hb, ms', h', hm⟩ := h'.again ClassMember.again ClassMember.head hr
    obtain ⟨cs', h, hc⟩ := conformances_again h hs (stops_of_startsPart hb).2.1.endsAs
    exact ⟨_, .ofClass h h', by
      simp only [Item.mapAnchor, Declaration.mapAnchor, ClassDecl.mapAnchor, hc, hm, forget]⟩
  | ofProtocol h h' =>
    obtain ⟨n, ts, r, rfl, hs, hr⟩ := after_declarationSpelling hs
    obtain ⟨hb, ms', h', hm⟩ := h'.again ProtocolMember.again ProtocolMember.head hr
    obtain ⟨cs', h, hc⟩ := conformances_again h hs (stops_of_startsPart hb).2.1.endsAs
    exact ⟨_, .ofProtocol h h', by
      simp only [Item.mapAnchor, Declaration.mapAnchor, ProtocolDecl.mapAnchor, hc, hm, forget]⟩
  | ofEnum h h' =>
    obtain ⟨n, ts, r, rfl, hs, hr⟩ := after_declarationSpelling hs
    obtain ⟨hb, es', h', he⟩ := h'.again hr
    obtain ⟨cs', h, hc⟩ := conformances_again h hs (stops_of_startsPart hb).2.1.endsAs
    exact ⟨_, .ofEnum h h', by
      simp only [Item.mapAnchor, Declaration.mapAnchor, EnumDecl.mapAnchor, hc, he, forget]⟩
  | typeAlias h =>
    simp only [Item.spelling, AliasDecl.spelling, after_cons_iff] at hs
    obtain ⟨n, ts, rfl, m, us, heq, k, vs, heq', hs⟩ := hs
    cases heq
    cases heq'
    obtain ⟨type', h', he⟩ := annotation_again' h hs ht.endsAs
    exact ⟨_, .typeAlias h', by
      simp only [Item.mapAnchor, AliasDecl.mapAnchor, he, forget]⟩

theorem Declaration.not_statement {s t : Stream} {item : Item} (h : Declaration s item t)
    (stmt : Stmt) : item ≠ .statement stmt := by
  cases h <;> simp

theorem Items.stops {returned : Bool} {s : Stream} {c : Chunk} (h : Items returned s c) :
    s.Stops (joinsNames ·) := by
  cases h with
  | done h =>
    refine stops_of_semicolons ?_ (by decide)
    simp [Stops, h]
  | declaration h _ =>
    obtain ⟨n, u, us, rfl, hu⟩ := h.head
    refine stops_cons.2 fun hj => ?_
    unfold startsDeclaration at hu
    split at hu
    all_goals first
      | cases hj
      | cases hu
  | statement h _ =>
    refine stops_of_semicolons ?_ (by decide)
    obtain ⟨n, u, us, hs, hu⟩ := h.head
    rw [hs]
    exact stops_cons.2 (not_joinsNames_of_startsStatement hu)

theorem Items.returned_false {returned : Bool} {s : Stream} {item : Item} {c : Chunk}
    (h : Items returned s (item :: c)) : returned = false := by
  cases h with
  | declaration _ _ => rfl
  | statement _ _ => rfl

theorem Items.endsStatement {returned : Bool} {s : Stream} {item : Item} {c : Chunk}
    (h : Items returned s (item :: c)) (hi : ∀ stmt, item ≠ .statement stmt) (stmt : Stmt) :
    EndsStatement stmt s := by
  cases h with
  | declaration h _ =>
    obtain ⟨n, u, us, rfl, hu⟩ := h.head
    refine ⟨stops_cons.2 (not_joinsStatement_of_startsDeclaration hu), fun _ => stops_cons.2 ?_⟩
    rintro rfl
    cases hu
  | statement _ _ => exact absurd rfl (hi _)

theorem Items.semicolon {returned : Bool} {n : TokenIndex} {ts : List Token} {stmt : Stmt}
    {c : Chunk} (h : Items returned ⟨n + 1, ts⟩ (.statement stmt :: c)) :
    Items returned ⟨n, .operator .semicolon :: ts⟩ (.statement stmt :: c) := by
  cases h with
  | declaration h _ => exact absurd rfl (h.not_statement stmt)
  | statement h h' => exact .statement (semicolons_cons n ts ▸ h) h'

/-- A chunk is spelled item by item, with a semicolon only between two statements. -/
theorem spellingOfChunk_cons (item : Item) (c : Chunk) : spellingOfChunk (item :: c) =
    item.spelling ++ ((c.head?.elim [] (gap item)) ++ spellingOfChunk c) := by
  cases c with
  | nil => simp [spellingOfChunk]
  | cons next rest => simp [spellingOfChunk]

/-- What stands behind a statement, a semicolon before it or not, is read again and ends the
statement. -/
theorem Items.behind_statement {stmt : Stmt} {s r t : Stream} {more : Chunk}
    (h : Items stmt.isLast s more)
    (again : ∀ ⦃s' t'⦄, After (spellingOfChunk more) s' t' → t'.left = [] →
      ∃ c', Items stmt.isLast s' c' ∧ eraseChunk c' = eraseChunk more)
    (hr : After (more.head?.elim [] (gap (.statement stmt)) ++ spellingOfChunk more) r t)
    (ht : t.left = []) :
    EndsStatement stmt r ∧
      ∃ more', Items stmt.isLast r more' ∧ eraseChunk more' = eraseChunk more := by
  cases more with
  | nil =>
    obtain rfl := after_nil_iff.1 hr
    refine ⟨⟨?_, fun _ => ?_⟩, again hr ht⟩
    · simp [Stops, ht]
    · simp [Stops, ht]
  | cons next rest =>
    cases next with
    | statement x =>
      obtain ⟨m, us, rfl, hr'⟩ := after_cons_iff.1 hr
      obtain ⟨more', hm, hes⟩ := again hr' ht
      refine ⟨endsStatement_of_semicolon h.returned_false .., more', ?_, hes⟩
      obtain ⟨next', rest', rfl, hn, -⟩ := List.map_eq_cons_iff.1 hes
      cases next' with
      | statement x' => exact hm.semicolon
      | _ => cases hn
    | _ =>
      obtain ⟨more', hm, hes⟩ := again hr ht
      obtain ⟨next', rest', rfl, hn, -⟩ := List.map_eq_cons_iff.1 hes
      refine ⟨hm.endsStatement ?_ stmt, _, hm, hes⟩
      rintro x rfl
      cases hn

theorem Items.again {returned : Bool} {s : Stream} {c : Chunk} (h : Items returned s c) :
    ∀ ⦃s' t'⦄, After (spellingOfChunk c) s' t' → t'.left = [] →
      ∃ c', Items returned s' c' ∧ eraseChunk c' = eraseChunk c := by
  induction h with
  | done _ =>
    intro s' t' hs ht
    obtain rfl := after_nil_iff.1 hs
    refine ⟨[], .done ?_, rfl⟩
    rw [semicolons_of_stops (by simp [Stops, ht])]
    exact ht
  | @declaration _ item _ more h _ ih =>
    intro s' t' hs ht
    have hgap : more.head?.elim [] (gap item) = [] := by
      cases h <;> cases more <;> rfl
    rw [spellingOfChunk_cons, hgap, List.nil_append, after_append_iff] at hs
    obtain ⟨r, hs, hr⟩ := hs
    obtain ⟨more', hm, hes⟩ := ih hr ht
    obtain ⟨item', h', he⟩ := h.again hs hm.stops
    refine ⟨_, .declaration h' hm, ?_⟩
    rw [eraseChunk, List.map_cons, he]
    exact congrArg _ hes
  | @statement _ stmt _ more h hmore ih =>
    intro s' t' hs ht
    rw [spellingOfChunk_cons, after_append_iff] at hs
    obtain ⟨r, hs, hr⟩ := hs
    obtain ⟨hend, more', hm, hes⟩ := hmore.behind_statement ih hr ht
    obtain ⟨stmt', h', he⟩ := h.again hs hend
    have hlast : stmt'.isLast = stmt.isLast := by
      rw [← isLast_mapAnchor forget, he, isLast_mapAnchor]
    refine ⟨.statement stmt' :: more', .statement (h'.semicolons_eq.symm ▸ h') (hlast ▸ hm), ?_⟩
    rw [eraseChunk, List.map_cons, Item.mapAnchor, he]
    exact congrArg _ hes

end Reading

/-- The canonical spelling of a chunk that was read is read as that chunk, but for the anchors. -/
theorem chunk_spelling {ts : List Token} {c : Chunk} (h : chunk ts = .ok c) :
    ∃ c', chunk (spellingOfChunk c) = .ok c' ∧ eraseChunk c' = eraseChunk c := by
  have hs : After (spellingOfChunk c) (Stream.ofTokens (spellingOfChunk c))
      ⟨(spellingOfChunk c).length, []⟩ :=
    ⟨(List.append_nil _).symm, (Nat.zero_add _).symm⟩
  obtain ⟨c', h', he⟩ := (reads_items h).again hs rfl
  exact ⟨c', accepts_items h', he⟩

end ScriptFront.Phrase
