import ScriptFront.Proofs.ResolveErrors
/-! What stands at the index of an error in the tokens of a chunk: the name that the error tells of,
the parent in front of a member, or the conformance that gives a protocol once more. -/
namespace ScriptFront.Program
open Syntax Phrase

/-- A conformance gives a protocol: the one that it names, or one that the class it names has. -/
inductive Declared.Brings (d : Declared) (c : Conformance) (p : ObjectId) : Prop
  | itself : d.find? c.name = some p → d.isProtocol p = true → Brings d c p
  | inherited : d.find? c.name = some j → d.isClass j = true → d.Flattens (d.targets j) ps →
    p ∈ ps → Brings d c p

/-- A conformance of an object gives a protocol that those before it in the list give. -/
structure Declared.Repeats (d : Declared) (id : ObjectId) (c : Conformance) (p : ObjectId) :
    Prop where
  again : ∃ before after ps, d.conforms id = before ++ c :: after ∧
    d.Flattens (before.filterMap (d.find? ·.name)) ps ∧ p ∈ ps
  brings : d.Brings c p

/-- An error about a protocol that is given once more. -/
def ResolveError.RepeatsIn (e : ResolveError) (d : Declared) : Prop :=
  e.cause = .duplicateProtocol →
    ∃ id c p, d.Repeats id c p ∧ c.anchor = e.index ∧ e.name = d.nameOf p

section
variable {d : Declared} {a : Arena} {id j : ObjectId} {c : Conformance}
  {before : List Conformance} {chunks : List Chunk} {e : ResolveError}

theorem Turn.repeats {p : ObjectId} (h : Turn d a id before c) (hp : p ∈ a.protocols id)
    (hb : d.Brings c p) : d.Repeats id c p := by
  obtain ⟨after, hl⟩ := h.listed
  exact ⟨⟨before, after, _, hl, h.holds.flattens, hp⟩, hb⟩

/-- What the object that is named gives comes from a list that was resolved before. -/
theorem brings_of_given {p : ObjectId} (hj : d.find? c.name = some j) (he : d.isEnum j = false)
    (hset : Settled d a j) (hp : p ∈ given d a j) : d.Brings c p := by
  unfold given at hp
  split at hp
  · next hc => exact .inherited hj hc hset.holds.flattens hp
  · next hc =>
    obtain rfl := List.mem_singleton.1 hp
    exact .itself hj (Declared.isProtocol_of_not (Declared.find?_lt hj) (by simpa using hc) he)

theorem blames_repeats (d : Declared) : Blames d (·.RepeatsIn d) where
  target _ hr hc := by cases hr <;> cases hc
  adopt h hj he hset hp hknown _ :=
    ⟨_, _, _, h.repeats hknown (brings_of_given hj he hset hp), rfl, rfl⟩

theorem ResolveError.PointsAtType.not_duplicateProtocol (h : e.PointsAtType chunks) :
    e.cause ≠ .duplicateProtocol := by
  intro hc
  obtain ⟨t, -, ht⟩ := h
  rw [ResolveError.PointsAt, hc] at ht
  obtain ⟨name, ht⟩ := ht
  cases ht

/-- A protocol is given once more by declarations that were all collected. -/
theorem ofChunks_repeatsIn (h : Program.ofChunks chunks = .error e)
    (hc : e.cause = .duplicateProtocol) :
    ∃ d, Declared.ofChunks chunks = .ok d ∧ e.RepeatsIn d := by
  rcases phase_of_error h with h | ⟨d, hd, h | h⟩
  · rcases Declared.duplicate_of_ofChunks e h with h | h <;> rw [h] at hc <;> cases hc
  · exact ⟨d, hd, (blames_repeats d).ofDeclared e h⟩
  · exact absurd hc (fails_tables (Declared.from_ofChunks hd) e h).not_duplicateProtocol

end

/-- What the tokens of a chunk show at the index of an error. -/
def ResolveError.ShownIn (e : ResolveError) (ts : List Token) (c : Chunk) : Prop :=
  match e.cause with
  | .duplicateName | .duplicateType | .undefinedObject | .secondSuperclass | .invalidConformance
  | .cyclicConformance | .undefinedType | .noMetaType | .cyclicAlias =>
    ts[e.index]? = some (.name e.name)
  | .notAMember => ∃ parent, HasNode [c] (.type (.member e.index parent e.name)) ∧
    ts[e.index]? = some (.name parent) ∧ ts[e.index + 1]? = some (.operator .dot) ∧
      ts[e.index + 2]? = some (.name e.name)
  | .duplicateProtocol => ∃ d id conf p, Declared.ofChunks [c] = .ok d ∧ d.Repeats id conf p ∧
    e.name = d.nameOf p ∧ conf.anchor = e.index ∧ ts[e.index]? = some (.name conf.name)

section
variable {ts : List Token} {c : Chunk} {e : ResolveError}

theorem Declared.Repeats.mem {d : Declared} {id p : ObjectId} {conf : Conformance}
    (h : d.Repeats id conf p) : conf ∈ d.conforms id := by
  obtain ⟨before, after, ps, hl, -⟩ := h.again
  rw [hl]
  exact List.mem_append_right _ List.mem_cons_self

theorem shownIn_of_ofChunks (hc : Phrase.chunk ts = .ok c) (h : Program.ofChunks [c] = .error e) :
    e.ShownIn ts c := by
  obtain ⟨n, hn, he⟩ := ofChunks_error_points h
  unfold ResolveError.PointsAt at he
  unfold ResolveError.ShownIn
  cases hcause : e.cause with
  | notAMember =>
    rw [hcause] at he
    obtain ⟨parent, rfl⟩ := he
    obtain ⟨_, _, ho⟩ := hn.occupies hc
    exact ⟨parent, hn, hn.getElem? hc rfl, ho.spelled⟩
  | duplicateProtocol =>
    obtain ⟨d, hd, hr⟩ := ofChunks_repeatsIn h hcause
    obtain ⟨id, conf, p, hrep, ha, hname⟩ := hr hcause
    have hconf := (Declared.from_ofChunks hd).conforms hrep.mem
    exact ⟨d, id, conf, p, hd, hrep, hname, ha, ha ▸ hconf.getElem? hc rfl⟩
  | _ =>
    rw [hcause] at he
    exact hn.getElem? hc he

/-- The index of an error is that of a token, and what the error tells of stands there. -/
theorem ofChunks_error_tokens (hc : Phrase.chunk ts = .ok c)
    (h : Program.ofChunks [c] = .error e) : e.index < ts.length ∧ e.ShownIn ts c := by
  obtain ⟨name, hname⟩ := ofChunks_error_name hc h
  exact ⟨(List.getElem?_eq_some_iff.1 hname).1, shownIn_of_ofChunks hc h⟩

end

/-- `protocol P end class B : P end class C : P, B end` -/
def inheritedAgainTokens : List Token :=
  [.keyword .protocol_, .name "P", .keyword .end_, .keyword .class_, .name "B", .operator .colon,
    .name "P", .keyword .end_, .keyword .class_, .name "C", .operator .colon, .name "P",
    .operator .comma, .name "B", .keyword .end_]

def inheritedAgain : Declared :=
  ⟨[.ofProtocol ⟨1, "P", [], []⟩, .ofClass ⟨4, "B", [⟨6, "P"⟩], []⟩,
    .ofClass ⟨9, "C", [⟨11, "P"⟩, ⟨13, "B"⟩], []⟩], []⟩

def inheritedAgainChunk : Chunk := inheritedAgain.objects.map .object

theorem chunk_inheritedAgain : Phrase.chunk inheritedAgainTokens = .ok inheritedAgainChunk := by
  refine accepts_items (.declaration (.ofProtocol (.none ?_) .none) ?_)
  · exact Stream.stops_cons.2 nofun
  refine .declaration (.ofClass (.list (.last .intro ?_)) .none) ?_
  · exact Stream.stops_cons.2 nofun
  refine .declaration (.ofClass (.list (.more .intro (.last .intro ?_))) .none) (.done ?_)
  · exact Stream.stops_cons.2 nofun
  · rw [semicolons_of_stops Stream.stops_nil]

theorem ofChunks_inheritedAgain :
    Program.ofChunks [inheritedAgainChunk] = .error ⟨.duplicateProtocol, "P", 13⟩ := by
  have hd : Declared.ofChunks [inheritedAgainChunk] = .ok inheritedAgain := by rfl
  have ha : Arena.ofDeclared inheritedAgain = .error ⟨.duplicateProtocol, "P", 13⟩ := by
    rw [ofDeclared_eq_within]
    rfl
  rw [Program.ofChunks, hd, ok_bind, ha]
  rfl

/-- What is given once more is `P`, and `B` stands where that happens. -/
theorem ofChunks_error_tokens_inheritedAgain :
    Phrase.chunk inheritedAgainTokens = .ok inheritedAgainChunk ∧
      Program.ofChunks [inheritedAgainChunk] = .error ⟨.duplicateProtocol, "P", 13⟩ ∧
      ResolveError.ShownIn ⟨.duplicateProtocol, "P", 13⟩ inheritedAgainTokens inheritedAgainChunk ∧
      inheritedAgainTokens[13]? = some (.name "B") :=
  ⟨chunk_inheritedAgain, ofChunks_inheritedAgain,
    (ofChunks_error_tokens chunk_inheritedAgain ofChunks_inheritedAgain).2, rfl⟩

end ScriptFront.Program
