import TraceTree.Syntax.Reader

set_option autoImplicit false

/-! # What reading comes to

Reading a source text ends in the building of one pair (`build_of_parseAt`), and whatever is read is
a program. -/

namespace TraceTree

/-- What comes of two actions in a row comes of the second, from what comes of the first. -/
theorem Build.of_bind {α β : Type} {act : Build α} {rest : α → Build β} {draft draft'' : Draft}
    {b : β} (h : (act >>= rest) draft = .ok (b, draft'')) :
    ∃ a draft', act draft = .ok (a, draft') ∧ rest a draft' = .ok (b, draft'') := by
  simp only [bind, StateT.bind, Except.bind] at h
  split at h
  · cases h
  · next r hact => exact ⟨r.1, r.2, hact, h⟩

/-- The last thing that is made is what is handed on. -/
theorem Build.of_bind_alloc {α : Type} {act : Build α} {span : Span} {make : α → NodeId → Node}
    {draft draft' : Draft} {part : Part}
    (h : (act >>= fun a => Build.alloc span (make a)) draft = .ok (part, draft')) :
    ∃ a id, part.node = make a id := by
  obtain ⟨a, draft₁, _, halloc⟩ := Build.of_bind h
  obtain ⟨rfl, _⟩ := Prod.mk.inj (Except.ok.inj halloc)
  exact ⟨a, draft₁.next, rfl⟩

theorem Level.program_of_build {level : Level} {size : Nat} {p : Pair} {draft draft' : Draft}
    {part : Part} (h : level.build size p draft = .ok (part, draft')) :
    ∃ id statements, part.node = .program id statements := by
  unfold Level.build at h
  split at h
  · obtain ⟨parts, id, hnode⟩ := Build.of_bind_alloc h
    exact ⟨id, _, hnode⟩
  · obtain ⟨only, id, hnode⟩ := Build.of_bind_alloc h
    exact ⟨id, _, hnode⟩
  · rw [← bind_assoc] at h
    obtain ⟨only, id, hnode⟩ := Build.of_bind_alloc h
    exact ⟨id, _, hnode⟩
  · cases h

/-- What was read was matched, and built from the pair of the entry rule. -/
theorem matched_of_parseAt {first : NodeId} {source : String} {level : Level} {parsed : Parsed}
    (h : parseAt first source level = .ok parsed) :
    ∃ p next a, level.rule.recognise source.toList = .matched [p] next a ∧
      ∃ root draft, level.build source.utf8ByteSize p ⟨first, #[]⟩ = .ok (root, draft) ∧
        parsed = ⟨root.node, first, draft.spans⟩ := by
  unfold parseAt at h
  split at h
  · next p next a hmatched =>
    simp only [bind, Except.bind] at h
    split at h
    · cases h
    · next r hbuild =>
      exact ⟨p, next, a, hmatched, r.1, r.2, hbuild, (Except.ok.inj h).symm⟩
  · cases h
  · cases h

/-- What was read was built from the pair of the entry rule. -/
theorem build_of_parseAt {first : NodeId} {source : String} {level : Level} {parsed : Parsed}
    (h : parseAt first source level = .ok parsed) :
    ∃ p root draft, level.build source.utf8ByteSize p ⟨first, #[]⟩ = .ok (root, draft) ∧
      parsed = ⟨root.node, first, draft.spans⟩ := by
  obtain ⟨p, _, _, _, hbuild⟩ := matched_of_parseAt h
  exact ⟨p, hbuild⟩

theorem program_of_parseAt {first : NodeId} {source : String} {level : Level} {parsed : Parsed}
    (h : parseAt first source level = .ok parsed) :
    ∃ id statements, parsed.root = .program id statements := by
  obtain ⟨p, root, draft, hbuild, rfl⟩ := build_of_parseAt h
  exact Level.program_of_build hbuild

end TraceTree
