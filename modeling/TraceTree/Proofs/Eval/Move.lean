import TraceTree.Proofs.Eval.Stepping

set_option autoImplicit false

/-! # The moves of a node

`Node.move` reads the next move off the values of the parts. The lemmas here go the other way: what
a node must be, and how far it must be, to make a move of each kind. `Node.walks` lists the fields
that an evaluation goes through, and a node only ever visits the next field of one of its walks. -/

namespace TraceTree

/-! ## The fields an evaluation goes through -/

namespace Node

/-- The fields that an evaluation of a node goes through, in order: one list for each course it can
take. The name of a `let` and the parts of a function literal are not evaluated. -/
def walks : Node → List (List Node)
  | program _ statements | block _ statements => [statements]
  | letStatement _ _ value => [[value]]
  | returnStatement _ value => [[value]]
  | expressionStatement _ expression => [[expression]]
  | identifier _ _ | boolean _ _ | integer _ _ | functionLiteral _ _ _ => [[]]
  | prefixExpression _ _ right => [[right]]
  | infixExpression _ _ left right => [[left, right]]
  | ifExpression _ condition consequence none => [[condition, consequence]]
  | ifExpression _ condition consequence (some alternative) =>
    [[condition, consequence], [condition, alternative]]
  | call _ function arguments => [function :: arguments]

/-- A walk keeps to the order of the fields and takes none twice. -/
theorem sublist_children_of_mem_walks {n : Node} {walk : List Node} (h : walk ∈ n.walks) :
    walk.Sublist n.children := by
  cases n with
  | ifExpression id condition consequence alternative =>
    cases alternative with
    | none =>
      rw [walks, List.mem_singleton] at h
      rw [h, children]
      exact List.Sublist.refl _
    | some other =>
      simp only [walks, List.mem_cons, List.not_mem_nil, or_false] at h
      rcases h with rfl | rfl
      · exact List.Sublist.cons_cons _ (List.Sublist.cons_cons _ (List.nil_sublist _))
      · exact List.Sublist.cons_cons _ (List.Sublist.cons _ (List.Sublist.refl _))
  | letStatement id name value =>
    rw [walks, List.mem_singleton] at h
    rw [h]
    exact List.Sublist.cons _ (List.Sublist.refl _)
  | functionLiteral id parameters body =>
    rw [walks, List.mem_singleton] at h
    rw [h]
    exact List.nil_sublist _
  | _ =>
    rw [walks, List.mem_singleton] at h
    rw [h]
    exact List.Sublist.refl _

theorem exists_mem_walks (n : Node) : ∃ walk, walk ∈ n.walks := by
  cases n with
  | ifExpression id condition consequence alternative =>
    cases alternative with
    | none => exact ⟨_, List.mem_cons_self⟩
    | some other => exact ⟨_, List.mem_cons_self⟩
  | _ => exact ⟨_, List.mem_cons_self⟩

end Node

/-! ## Visits -/

namespace Move

variable {null : Value}

theorem unlessError_eq {value : Value} {move other : Move} (h : unlessError value move = other) :
    (value.isError = true ∧ other = .finish (.value (some value))) ∨
      (value.isError = false ∧ move = other) := by
  unfold unlessError at h
  split at h
  · next he => exact Or.inl ⟨he, h.symm⟩
  · next he => exact Or.inr ⟨Bool.eq_false_iff.mpr he, h⟩

theorem unlessError_eq_of_ne {value : Value} {move other : Move}
    (h : unlessError value move = other) (hother : ∀ ending, other ≠ .finish ending) :
    value.isError = false ∧ move = other := by
  rcases unlessError_eq h with ⟨_, h'⟩ | h'
  · exact absurd h' (hother _)
  · exact h'

theorem sequence_eq_visit {close : Option Value → Option Value} {last : Option Value}
    {statements : List Node} {done : List (Option Value)} {part : Node}
    (h : sequence close last statements done = .visit part) :
    statements[done.length]? = some part := by
  induction statements generalizing last done with
  | nil => exact absurd h (by simp [sequence])
  | cons statement more ih =>
    cases done with
    | nil =>
      rw [sequence] at h
      split at h
      · exact absurd h (by simp)
      · rw [Move.visit.inj h]
        rfl
    | cons value done => exact ih h

theorem sequence_ne_call {close : Option Value → Option Value} {last : Option Value}
    {statements : List Node} {done : List (Option Value)} {closure : Closure}
    {arguments : List Value} : sequence close last statements done ≠ .call closure arguments := by
  induction statements generalizing last done with
  | nil => simp [sequence]
  | cons statement more ih =>
    cases done with
    | nil =>
      rw [sequence]
      split <;> simp
    | cons value done => exact ih

theorem application_ne_visit {function : Value} {arguments : List Value}
    {done : List (Option Value)} {part : Node} :
    application null function arguments done ≠ .visit part := by
  unfold application
  split
  · split
    · split <;> simp
    · simp
  · simp

theorem operands_eq_visit {function : Value} {values : List Value} {operands : List Node}
    {done : List (Option Value)} {part : Node}
    (h : Move.operands null function values operands done = .visit part) :
    operands[done.length]? = some part := by
  induction operands generalizing values done with
  | nil => exact absurd h application_ne_visit
  | cons operand more ih =>
    cases done with
    | nil =>
      rw [Move.visit.inj h]
      rfl
    | cons value done => exact ih (unlessError_eq_of_ne h (by simp)).2

/-! ## Calls -/

theorem application_eq_call {function : Value} {values : List Value} {done : List (Option Value)}
    {closure : Closure} {arguments : List Value}
    (h : application null function values done = .call closure arguments) :
    done = [] ∧ arguments = values ∧ closure.parameters.length = arguments.length ∧
      ∃ id, function = .function id closure := by
  unfold application at h
  split at h
  · split at h
    · next id closure' =>
      split at h
      · next harity =>
        obtain ⟨rfl, rfl⟩ := Move.call.inj h
        exact ⟨rfl, rfl, harity, id, rfl⟩
      · exact absurd h (by simp)
    · exact absurd h (by simp)
  · exact absurd h (by simp)

theorem operands_eq_call {function : Value} {values : List Value} {operands : List Node}
    {done : List (Option Value)} {closure : Closure} {arguments : List Value}
    (h : Move.operands null function values operands done = .call closure arguments) :
    done.length = operands.length ∧ arguments = values ++ done.map (·.getD null) ∧
      (∀ value ∈ done, (value.getD null).isError = false) ∧
      closure.parameters.length = arguments.length ∧ ∃ id, function = .function id closure := by
  induction operands generalizing values done with
  | nil =>
    obtain ⟨rfl, rfl, harity, hfunction⟩ := application_eq_call h
    exact ⟨rfl, by simp, by simp, harity, hfunction⟩
  | cons operand more ih =>
    cases done with
    | nil => exact absurd h (by simp [Move.operands])
    | cons value done =>
      obtain ⟨herror, h⟩ := unlessError_eq_of_ne h (by simp)
      obtain ⟨hlen, hargs, herrors, harity, hfunction⟩ := ih h
      refine ⟨by simp [hlen], by simp [hargs], ?_, harity, hfunction⟩
      intro v hv
      rcases List.mem_cons.mp hv with rfl | hv
      · exact herror
      · exact herrors v hv

end Move

namespace Node

variable {null : Value} {n : Node} {done : List (Option Value)}

/-- A node visits the next field of a walk; the walks it can take agree so far. -/
theorem walk_of_visit {part : Node} (h : n.move null done = .visit part) :
    ∃ walk ∈ n.walks, walk[done.length]? = some part ∧
      ∀ other ∈ n.walks, other.take done.length = walk.take done.length := by
  cases n with
  | program id statements =>
    exact ⟨_, List.mem_singleton_self _, Move.sequence_eq_visit h, by simp [walks]⟩
  | block id statements =>
    exact ⟨_, List.mem_singleton_self _, Move.sequence_eq_visit h, by simp [walks]⟩
  | expressionStatement id expression =>
    cases done with
    | nil => exact ⟨_, List.mem_singleton_self _, by rw [Move.visit.inj h]; rfl, by simp⟩
    | cons value done => exact absurd h (by simp [move])
  | returnStatement id operand =>
    cases done with
    | nil => exact ⟨_, List.mem_singleton_self _, by rw [Move.visit.inj h]; rfl, by simp⟩
    | cons value done => exact absurd (Move.unlessError_eq_of_ne h (by simp)).2 (by simp)
  | letStatement id target operand =>
    cases done with
    | nil => exact ⟨_, List.mem_singleton_self _, by rw [Move.visit.inj h]; rfl, by simp⟩
    | cons value done => exact absurd (Move.unlessError_eq_of_ne h (by simp)).2 (by simp)
  | integer id n => exact absurd h (by simp [move])
  | boolean id b => exact absurd h (by simp [move])
  | identifier id name => exact absurd h (by simp [move])
  | prefixExpression id op operand =>
    cases done with
    | nil => exact ⟨_, List.mem_singleton_self _, by rw [Move.visit.inj h]; rfl, by simp⟩
    | cons value done => exact absurd (Move.unlessError_eq_of_ne h (by simp)).2 (by simp)
  | infixExpression id op first second =>
    cases done with
    | nil => exact ⟨_, List.mem_singleton_self _, by rw [Move.visit.inj h]; rfl, by simp⟩
    | cons left done =>
      cases done with
      | nil =>
        rw [← Move.visit.inj (Move.unlessError_eq_of_ne h (by simp)).2]
        exact ⟨_, List.mem_singleton_self _, rfl, by simp [walks]⟩
      | cons right done => exact absurd (Move.unlessError_eq_of_ne h (by simp)).2 (by simp)
  | ifExpression id condition consequence alternative =>
    cases done with
    | nil =>
      rw [← Move.visit.inj h]
      cases alternative <;> exact ⟨_, List.mem_cons_self, rfl, by simp⟩
    | cons test done =>
      cases done with
      | nil =>
        have h := (Move.unlessError_eq_of_ne h (by simp)).2
        split at h
        · rw [← Move.visit.inj h]
          cases alternative <;> exact ⟨_, List.mem_cons_self, rfl, by simp [walks]⟩
        · cases alternative with
          | none => exact absurd h (by simp)
          | some other =>
            rw [← Move.visit.inj h]
            exact ⟨_, List.mem_cons_of_mem _ List.mem_cons_self, rfl, by simp [walks]⟩
      | cons value done => exact absurd h (by simp [move])
  | functionLiteral id parameters body => exact absurd h (by simp [move])
  | call id callee operands =>
    cases done with
    | nil => exact ⟨_, List.mem_singleton_self _, by rw [Move.visit.inj h]; rfl, by simp⟩
    | cons function done =>
      refine ⟨callee :: operands, List.mem_singleton_self _, ?_, by simp [walks]⟩
      show operands[done.length]? = some part
      exact Move.operands_eq_visit (Move.unlessError_eq_of_ne h (by simp)).2

/-- Only a call calls, once its function and its arguments have values, none of them a fault. -/
theorem of_move_eq_call {closure : Closure} {arguments : List Value}
    (h : n.move null done = .call closure arguments) :
    ∃ id callee operands function others, n = .call id callee operands ∧
      done = function :: others ∧ others.length = operands.length ∧
      arguments = others.map (·.getD null) ∧ closure.parameters.length = arguments.length ∧
      (∀ value ∈ others, (value.getD null).isError = false) ∧
      ∃ id', function.getD null = .function id' closure := by
  cases n with
  | program id statements => exact absurd h Move.sequence_ne_call
  | block id statements => exact absurd h Move.sequence_ne_call
  | call id callee operands =>
    cases done with
    | nil => exact absurd h (by simp [move])
    | cons function others =>
      obtain ⟨hlen, hargs, herrors, harity, hfunction⟩ :=
        Move.operands_eq_call (Move.unlessError_eq_of_ne h (by simp)).2
      exact ⟨id, callee, operands, function, others, rfl, rfl, hlen, by simpa using hargs, harity,
        herrors, hfunction⟩
  | infixExpression id op first second =>
    rcases done with _ | ⟨left, _ | ⟨right, done⟩⟩
    · exact absurd h (by simp [move])
    · exact absurd (Move.unlessError_eq_of_ne h (by simp)).2 (by simp)
    · exact absurd (Move.unlessError_eq_of_ne h (by simp)).2 (by simp)
  | ifExpression id condition consequence alternative =>
    rcases done with _ | ⟨test, _ | ⟨value, done⟩⟩
    · exact absurd h (by simp [move])
    · have h := (Move.unlessError_eq_of_ne h (by simp)).2
      split at h
      · exact absurd h (by simp)
      · cases alternative <;> exact absurd h (by simp)
    · exact absurd h (by simp [move])
  | expressionStatement id expression =>
    cases done <;> exact absurd h (by simp [move])
  | returnStatement id operand =>
    cases done with
    | nil => exact absurd h (by simp [move])
    | cons value done => exact absurd (Move.unlessError_eq_of_ne h (by simp)).2 (by simp)
  | letStatement id target operand =>
    cases done with
    | nil => exact absurd h (by simp [move])
    | cons value done => exact absurd (Move.unlessError_eq_of_ne h (by simp)).2 (by simp)
  | prefixExpression id op operand =>
    cases done with
    | nil => exact absurd h (by simp [move])
    | cons value done => exact absurd (Move.unlessError_eq_of_ne h (by simp)).2 (by simp)
  | integer id n => exact absurd h (by simp [move])
  | boolean id b => exact absurd h (by simp [move])
  | identifier id name => exact absurd h (by simp [move])
  | functionLiteral id parameters body => exact absurd h (by simp [move])

end Node

/-! ## Ends -/

/-- Whether a node takes the wrapper off the value it ends with. -/
def Node.unwraps : Node → Bool
  | program _ _ | call _ _ _ => true
  | _ => false

/-- The ways in which a node can end after its parts had the values `done`. -/
inductive Node.EndsWith (null : Value) (n : Node) (done : List (Option Value)) : Ending → Prop where
  | nothing : EndsWith null n done (.value none)
  | null : EndsWith null n done (.value (some null))
  | fault {v : Option Value} (mem : v ∈ done) (error : (v.getD null).isError = true) :
      EndsWith null n done (.value (some (v.getD null)))
  | part {v : Option Value} (mem : v ∈ done) (kind : n.unwraps = false) :
      EndsWith null n done (.value v)
  | unwrapped {v : Option Value} (mem : v ∈ done) :
      EndsWith null n done (.value (some (v.getD null).unwrapped))
  | wrap {id : NodeId} {operand : Node} {v : Option Value} {more : List (Option Value)}
      (node : n = .returnStatement id operand) (parts : done = v :: more) :
      EndsWith null n done (.wrap (v.getD null))
  | bind {id : NodeId} {target operand : Node} {v : Option Value} {more : List (Option Value)}
      (node : n = .letStatement id target operand) (parts : done = v :: more) :
      EndsWith null n done (.bind target (v.getD null))
  | lookUp {name : String} : EndsWith null n done (.lookUp name)
  | close {id : NodeId} {parameters : List Node} {body : Node}
      (node : n = .functionLiteral id parameters body) :
      EndsWith null n done (.close parameters body)
  | result {r : Result} : EndsWith null n done (.result r)

namespace Move

variable {null : Value} {ending : Ending}

theorem application_eq_finish {function : Value} {arguments : List Value} {ending : Ending}
    (h : application null function arguments [] = .finish ending) : ∃ r, ending = .result r := by
  unfold application at h
  split at h
  · split at h
    · split at h
      · exact absurd h (by simp)
      · exact ⟨_, (Move.finish.inj h).symm⟩
    · exact ⟨_, (Move.finish.inj h).symm⟩
  · next heq => cases heq

theorem sequence_eq_finish {close : Option Value → Option Value} {last : Option Value}
    {statements : List Node} {done : List (Option Value)}
    (h : sequence close last statements done = .finish ending) :
    ∃ v, ending = .value (close v) ∧ (v = last ∨ v ∈ done) := by
  induction statements generalizing last done with
  | nil => exact ⟨last, (Move.finish.inj h).symm, Or.inl rfl⟩
  | cons statement more ih =>
    cases done with
    | nil =>
      rw [sequence] at h
      split at h
      · exact ⟨last, (Move.finish.inj h).symm, Or.inl rfl⟩
      · cases h
    | cons value done =>
      obtain ⟨v, hv, rfl | hmem⟩ := ih h
      · exact ⟨v, hv, Or.inr List.mem_cons_self⟩
      · exact ⟨v, hv, Or.inr (List.mem_cons_of_mem _ hmem)⟩

theorem ne_finish_of_visit {move : Move} {part : Node} (h : move = .visit part) (ending : Ending) :
    move ≠ .finish ending := by
  rw [h]
  exact nofun

/-- A sequence that has not ended yet ends with a value that ends sequences, once it gets one. -/
theorem sequence_concat {w : Value} (hw : w.endsSequence = true)
    {close : Option Value → Option Value} {last : Option Value} {statements : List Node}
    {done : List (Option Value)} (h : ∀ ending, sequence close last statements done ≠ .finish ending) :
    sequence close last statements (done ++ [some w]) = .finish (.value (close (some w))) := by
  induction statements generalizing last done with
  | nil => exact absurd rfl (h _)
  | cons statement more ih =>
    cases done with
    | nil =>
      show sequence close (some w) more [] = _
      cases more with
      | nil => rfl
      | cons next more =>
        rw [sequence, if_pos (by simp [hw])]
    | cons value done => exact ih h

theorem endsWith_of_unlessError {n : Node} {done : List (Option Value)} {value : Option Value}
    {move : Move} (hmem : value ∈ done) (h : unlessError (value.getD null) move = .finish ending)
    (hmove : move = .finish ending → n.EndsWith null done ending) : n.EndsWith null done ending := by
  rcases unlessError_eq h with ⟨herror, hfault⟩ | ⟨_, hrest⟩
  · obtain rfl := Move.finish.inj hfault
    exact .fault hmem herror
  · exact hmove hrest

theorem endsWith_of_application {n : Node} {before done : List (Option Value)} {function : Value}
    {arguments : List Value} (h : application null function arguments done = .finish ending) :
    n.EndsWith null (before ++ done) ending := by
  cases done with
  | nil =>
    obtain ⟨r, rfl⟩ := application_eq_finish h
    exact .result
  | cons value done =>
    obtain rfl := Move.finish.inj h
    exact .unwrapped (List.mem_append_right _ List.mem_cons_self)

theorem endsWith_of_operands {n : Node} (before : List (Option Value)) {done : List (Option Value)}
    {function : Value} {values : List Value} {operands : List Node}
    (h : Move.operands null function values operands done = .finish ending) :
    n.EndsWith null (before ++ done) ending := by
  induction operands generalizing values before done with
  | nil => exact endsWith_of_application h
  | cons operand more ih =>
    cases done with
    | nil => cases h
    | cons value done =>
      refine endsWith_of_unlessError (List.mem_append_right _ List.mem_cons_self) h fun hrest => ?_
      have hends := ih (before ++ [value]) hrest
      rw [List.append_assoc] at hends
      exact hends

end Move

/-- A node ends in one of these ways. -/
theorem Node.endsWith_of_move {null : Value} {n : Node} {done : List (Option Value)}
    {ending : Ending} (h : n.move null done = .finish ending) : n.EndsWith null done ending := by
  cases n with
  | program id statements =>
    obtain ⟨v, rfl, rfl | hmem⟩ := Move.sequence_eq_finish h
    · exact .nothing
    · cases v with
      | none => exact .nothing
      | some v => exact .unwrapped hmem
  | block id statements =>
    obtain ⟨v, rfl, rfl | hmem⟩ := Move.sequence_eq_finish h
    · exact .nothing
    · exact .part hmem rfl
  | expressionStatement id expression =>
    cases done with
    | nil => cases h
    | cons value done =>
      obtain rfl := Move.finish.inj h
      exact .part List.mem_cons_self rfl
  | returnStatement id operand =>
    cases done with
    | nil => cases h
    | cons value done =>
      refine Move.endsWith_of_unlessError List.mem_cons_self h fun hrest => ?_
      obtain rfl := Move.finish.inj hrest
      exact .wrap rfl rfl
  | letStatement id target operand =>
    cases done with
    | nil => cases h
    | cons value done =>
      refine Move.endsWith_of_unlessError List.mem_cons_self h fun hrest => ?_
      obtain rfl := Move.finish.inj hrest
      exact .bind rfl rfl
  | integer id n =>
    obtain rfl := Move.finish.inj h
    exact .result
  | boolean id b =>
    obtain rfl := Move.finish.inj h
    exact .result
  | identifier id name =>
    obtain rfl := Move.finish.inj h
    exact .lookUp
  | prefixExpression id op operand =>
    cases done with
    | nil => cases h
    | cons right done =>
      refine Move.endsWith_of_unlessError List.mem_cons_self h fun hrest => ?_
      obtain rfl := Move.finish.inj hrest
      exact .result
  | infixExpression id op first second =>
    rcases done with _ | ⟨left, _ | ⟨right, done⟩⟩
    · cases h
    · exact Move.endsWith_of_unlessError List.mem_cons_self h fun hrest => (by cases hrest)
    · refine Move.endsWith_of_unlessError (List.mem_cons_of_mem _ List.mem_cons_self) h
        fun hrest => ?_
      obtain rfl := Move.finish.inj hrest
      exact .result
  | ifExpression id condition consequence alternative =>
    rcases done with _ | ⟨test, _ | ⟨value, done⟩⟩
    · cases h
    · refine Move.endsWith_of_unlessError List.mem_cons_self h fun hrest => ?_
      split at hrest
      · cases hrest
      · cases alternative with
        | none =>
          obtain rfl := Move.finish.inj hrest
          exact .null
        | some other => cases hrest
    · obtain rfl := Move.finish.inj h
      exact .part (List.mem_cons_of_mem _ List.mem_cons_self) rfl
  | functionLiteral id parameters body =>
    obtain rfl := Move.finish.inj h
    exact .close rfl
  | call id callee operands =>
    cases done with
    | nil => cases h
    | cons function done =>
      exact Move.endsWith_of_unlessError List.mem_cons_self h fun hrest =>
        Move.endsWith_of_operands [function] hrest

end TraceTree
