/-
# Proofs.Declarators -- functions and objects

A declarator is read from its name outwards: what is applied to the name first
decides what the name stands for, and parentheses only group.
`Declarator.built` is that list of constructors, and a name is a function's if a
parameter list comes first in it.

`Node.isPrototype` looks from the outside, and gives up at the first parentheses.
So it never takes an object for a function, but the functions that it knows are
those without parentheses: one whose parameter list stands behind them, or that
returns a pointer to a function or an array, counts as a variable.

What else a grammar puts below a declarator does not matter (`Shows`).
-/
import Mathlib.Data.List.Chain
import SymbolHistory.CSource.Outline

set_option autoImplicit false

namespace SymbolHistory

namespace CSource

inductive Constructor where
  | pointer
  | function
  | array
  | init
  deriving Repr, DecidableEq

/-- What makes a type of C: no function returns a function or an array, and no array holds
functions. -/
def Constructor.CanFollow : Constructor → Constructor → Prop
  | function, function => False
  | function, array => False
  | array, function => False
  | _, _ => True

namespace Declarator

/-- What is applied to the name, one after the other. -/
def built : Declarator → List Constructor
  | name _ _ => []
  | pointer d => d.built ++ [.pointer]
  | function d => d.built ++ [.function]
  | array d => d.built ++ [.array]
  | parens d => d.built
  | init d => d.built ++ [.init]

/-- The name stands for a function. -/
def DeclaresFunction (d : Declarator) : Prop := d.built.head? = some .function

instance (d : Declarator) : Decidable d.DeclaresFunction := inferInstanceAs (Decidable (_ = _))

def hasParens : Declarator → Bool
  | name _ _ => false
  | pointer d => d.hasParens
  | function d => d.hasParens
  | array d => d.hasParens
  | parens _ => true
  | init d => d.hasParens

/-- A parameter list or bounds can follow. -/
def isDirect : Declarator → Bool
  | pointer _ => false
  | init _ => false
  | _ => true

/-- A declarator as C writes it, without an initial value: parameter lists and bounds do not stand
behind pointers. -/
def isWritten : Declarator → Bool
  | name _ _ => true
  | pointer d => d.isWritten
  | function d => d.isDirect && d.isWritten
  | array d => d.isDirect && d.isWritten
  | parens d => d.isWritten
  | init _ => false

/-- A declarator as C writes it: an initial value comes last. -/
def isDeclared : Declarator → Bool
  | init d => d.isWritten
  | d => d.isWritten

/-- The variable that a declarator names. -/
def «variable» : Declarator → Tag
  | name text line => ⟨text, line, .variable⟩
  | pointer d => d.variable
  | function d => d.variable
  | array d => d.variable
  | parens d => d.variable
  | init d => d.variable

/-- The types are types of C, and no function has an initial value. -/
structure IsTyped (d : Declarator) : Prop where
  chain : d.built.IsChain Constructor.CanFollow
  value : Constructor.init ∈ d.built → ¬d.DeclaresFunction

variable {d : Declarator}

theorem exists_name (bare : d.hasParens = false) (none : d.built = []) :
    ∃ text line, d = name text line := by
  cases d with
  | name text line => exact ⟨text, line, rfl⟩
  | parens d => cases bare
  | pointer d => exact absurd none (List.append_ne_nil_of_right_ne_nil _ (List.cons_ne_nil _ _))
  | function d => exact absurd none (List.append_ne_nil_of_right_ne_nil _ (List.cons_ne_nil _ _))
  | array d => exact absurd none (List.append_ne_nil_of_right_ne_nil _ (List.cons_ne_nil _ _))
  | init d => exact absurd none (List.append_ne_nil_of_right_ne_nil _ (List.cons_ne_nil _ _))

/-- A function returns pointers to pointers if all that was applied to it are pointers. -/
theorem pointers_concat {cs : List Constructor} {c : Constructor} {n : Nat}
    (same : cs ++ [c] = .function :: List.replicate n .pointer) :
    (cs = [] ∧ c = .function ∧ n = 0) ∨
      ∃ m, n = m + 1 ∧ c = .pointer ∧ cs = .function :: List.replicate m .pointer := by
  cases n with
  | zero =>
      obtain ⟨none, one⟩ := List.append_inj' (show cs ++ [c] = [] ++ [.function] from same) rfl
      exact .inl ⟨none, List.head_eq_of_cons_eq one, rfl⟩
  | succ n =>
      rw [List.replicate_succ', ← List.cons_append] at same
      obtain ⟨front, one⟩ := List.append_inj' same rfl
      exact .inr ⟨n, rfl, List.head_eq_of_cons_eq one, front⟩

/-- Of a function that C can declare without parentheses no more can be said: what is written behind
the name is applied before the pointers in front of it. -/
theorem built_of_isWritten (written : d.isWritten = true)
    (chain : d.built.IsChain Constructor.CanFollow) (bare : d.hasParens = false)
    (isFunction : d.DeclaresFunction) :
    ∃ n, d.built = .function :: List.replicate n .pointer ∧ (d.isDirect = true → n = 0) := by
  -- what was there before the last constructor is a function already, unless there was nothing
  have before : ∀ {cs : List Constructor} {c : Constructor}, cs ≠ [] →
      (cs ++ [c]).head? = some .function → cs.head? = some .function := by
    intro cs c nonempty first
    rwa [List.head?_append_of_ne_nil _ nonempty] at first
  induction d with
  | name text line => cases isFunction
  | parens d ih => cases bare
  | init d ih => cases written
  | pointer d ih =>
      have nonempty : d.built ≠ [] := by
        intro none
        simp [DeclaresFunction, built, none] at isFunction
      obtain ⟨n, same, -⟩ := ih written chain.left_of_append bare (before nonempty isFunction)
      exact ⟨n + 1, by rw [built, same, List.cons_append, List.replicate_succ'], nofun⟩
  | function d ih =>
      obtain ⟨direct, written⟩ := Bool.and_eq_true_iff.mp written
      by_cases none : d.built = []
      · exact ⟨0, by rw [built, none]; rfl, fun _ => rfl⟩
      · obtain ⟨n, same, zero⟩ := ih written chain.left_of_append bare (before none isFunction)
        rw [built, same, zero direct] at chain
        exact absurd (List.isChain_pair.mp chain) id
  | array d ih =>
      obtain ⟨direct, written⟩ := Bool.and_eq_true_iff.mp written
      have nonempty : d.built ≠ [] := by
        intro none
        simp [DeclaresFunction, built, none] at isFunction
      obtain ⟨n, same, zero⟩ := ih written chain.left_of_append bare (before nonempty isFunction)
      rw [built, same, zero direct] at chain
      exact absurd (List.isChain_pair.mp chain) id

end Declarator

/-! ## Trees of declarators -/

/-- A node is the tree of a declarator.  Other nodes may stand below it, if the inner declarator is the
first one. -/
inductive Shows : Node → Declarator → Prop
  | name {n : Node} (type : n.type = NodeType.identifier) : Shows n (.name n.text n.line)
  | pointer {n inner : Node} {d : Declarator} (type : n.type = NodeType.pointer)
      (next : n.childOfType NodeType.declarators = some inner) (below : Shows inner d) :
      Shows n (.pointer d)
  | function {n inner : Node} {d : Declarator} (type : n.type = NodeType.function)
      (next : n.childOfType NodeType.declarators = some inner) (below : Shows inner d) :
      Shows n (.function d)
  | array {n inner : Node} {d : Declarator} (type : n.type = NodeType.array)
      (next : n.childOfType NodeType.declarators = some inner) (below : Shows inner d) :
      Shows n (.array d)
  | parens {n inner : Node} {d : Declarator} (type : n.type = NodeType.parens)
      (next : n.childOfType NodeType.declarators = some inner) (below : Shows inner d) :
      Shows n (.parens d)
  | init {n inner : Node} {d : Declarator} (type : n.type = NodeType.init)
      (next : n.childOfType NodeType.declarators = some inner) (below : Shows inner d) :
      Shows n (.init d)

/-- No declarator is a name but the identifier. -/
def OnlyIdentifiers (isName : Bytes → Bool) : Prop :=
  ∀ type ∈ NodeType.declarators, isName type = true → type = NodeType.identifier

section

variable {n inner : Node} {d : Declarator} {isName : Bytes → Bool}

theorem Node.isPrototype_of_pointer (type : n.type = NodeType.pointer)
    (next : n.childOfType NodeType.declarators = some inner) : n.isPrototype = inner.isPrototype := by
  rw [isPrototype, chain_of_childOfType next, List.dropWhile_cons_of_pos (by simp [type])]
  rfl

theorem Node.isPrototype_of_function (type : n.type = NodeType.function)
    (next : n.childOfType NodeType.declarators = some inner) :
    n.isPrototype = (inner.type == NodeType.identifier) := by
  rw [isPrototype, chain_of_childOfType next, List.dropWhile_cons_of_neg (by rw [type]; decide),
    chain_eq]
  simp [type]

theorem Node.isPrototype_of_other (noPointer : n.type ≠ NodeType.pointer)
    (noFunction : n.type ≠ NodeType.function) : n.isPrototype = false := by
  rw [isPrototype, chain_eq, List.dropWhile_cons_of_neg (by simpa using noPointer)]
  split
  · rename_i same
    obtain rfl := List.head_eq_of_cons_eq same
    simp [noFunction]
  · rfl

namespace Shows

/-- The functions that are known: nothing but pointers around a parameter list behind the name. -/
theorem isPrototype_iff (shows : Shows n d) :
    n.isPrototype = true ↔
      d.hasParens = false ∧ ∃ k, d.built = .function :: List.replicate k .pointer := by
  induction shows with
  | name type =>
      rw [Node.isPrototype_of_other (by rw [type]; decide) (by rw [type]; decide)]
      simp [Declarator.built]
  | @pointer n inner d type next below ih =>
      rw [Node.isPrototype_of_pointer type next, ih, Declarator.hasParens, Declarator.built]
      refine and_congr_right fun _ => ⟨?_, ?_⟩
      · rintro ⟨k, same⟩
        exact ⟨k + 1, by rw [same, List.cons_append, List.replicate_succ']⟩
      · rintro ⟨k, same⟩
        rcases Declarator.pointers_concat same with ⟨-, other, -⟩ | ⟨m, -, -, front⟩
        · cases other
        · exact ⟨m, front⟩
  | @function n inner d type next below ih =>
      rw [Node.isPrototype_of_function type next, beq_iff_eq, Declarator.hasParens, Declarator.built]
      constructor
      · intro isName
        obtain ⟨text, line, rfl⟩ : ∃ text line, d = .name text line := by
          cases below with
          | name type => exact ⟨_, _, rfl⟩
          | _ type => exact absurd (isName.symm.trans type) (by decide)
        exact ⟨rfl, 0, rfl⟩
      · rintro ⟨bare, k, same⟩
        rcases Declarator.pointers_concat same with ⟨none, -, -⟩ | ⟨m, -, other, -⟩
        · obtain ⟨text, line, rfl⟩ := Declarator.exists_name bare none
          cases below with
          | name type => exact type
        · cases other
  | parens type next below ih =>
      rw [Node.isPrototype_of_other (by rw [type]; decide) (by rw [type]; decide)]
      simp [Declarator.hasParens]
  | array type next below ih | init type next below ih =>
      rw [Node.isPrototype_of_other (by rw [type]; decide) (by rw [type]; decide)]
      refine iff_of_false Bool.false_ne_true ?_
      rintro ⟨-, k, same⟩
      rcases Declarator.pointers_concat same with ⟨-, other, -⟩ | ⟨m, -, other, -⟩ <;> cases other

/-- An object is never taken for a function. -/
theorem declaresFunction_of_isPrototype (shows : Shows n d) (known : n.isPrototype = true) :
    d.DeclaresFunction := by
  obtain ⟨-, k, same⟩ := shows.isPrototype_iff.mp known
  rw [Declarator.DeclaresFunction, same]
  rfl

/-- What is known of the functions that C can declare: those without parentheses. -/
theorem isPrototype_iff_of_isDeclared (shows : Shows n d) (declared : d.isDeclared = true)
    (typed : d.IsTyped) (isFunction : d.DeclaresFunction) :
    n.isPrototype = true ↔ d.hasParens = false := by
  rw [shows.isPrototype_iff]
  refine ⟨And.left, fun bare => ⟨bare, ?_⟩⟩
  cases d with
  | init d => exact absurd isFunction (typed.value (by simp [Declarator.built]))
  | _ =>
      obtain ⟨k, same, -⟩ := Declarator.built_of_isWritten declared typed.chain bare isFunction
      exact ⟨k, same⟩

theorem isDeclarator (shows : Shows n d) : n.isDeclarator = true := by
  cases shows with
  | _ type =>
      rw [Node.isDeclarator, type]
      decide

/-- The name that is found is the one that is declared. -/
theorem declaredName_eq (shows : Shows n d) (only : OnlyIdentifiers isName) :
    (n.declaredName isName).map (Node.tag .variable) = some d.variable := by
  -- around the name nothing is taken for one
  have skip : ∀ {n inner : Node}, n.type ∈ NodeType.declarators → n.type ≠ NodeType.identifier →
      n.childOfType NodeType.declarators = some inner →
      n.declaredName isName = inner.declaredName isName := by
    intro n inner isDeclarator other next
    have noName : isName n.type = false := Bool.eq_false_iff.mpr (mt (only _ isDeclarator) other)
    rw [Node.declaredName, Node.chain_of_childOfType next,
      List.find?_cons_of_neg (by simp [other, noName])]
    rfl
  induction shows with
  | name type =>
      rw [Node.declaredName, Node.chain_eq, List.find?_cons_of_pos (by simp [type])]
      rfl
  | pointer type next below ih | function type next below ih | array type next below ih
  | parens type next below ih | init type next below ih =>
      rw [skip (by rw [type]; decide) (by rw [type]; decide) next]
      exact ih

end Shows

end

/-! ## What a declaration defines -/

def declaring (d : Node) : Node := ⟨NodeType.declaration, [], 0, [d]⟩

section

variable {n : Node} {d : Declarator} {isName : Bytes → Bool}

theorem scanItem_of_declaration (isDeclaration : n.type = NodeType.declaration) :
    n.scanItem isName = n.scanDeclaration isName := by
  obtain ⟨type, text, row, children⟩ := n
  replace isDeclaration : type = NodeType.declaration := isDeclaration
  have noDefinition : (type == NodeType.definition) = false := by
    rw [isDeclaration]
    decide
  have noMacro : NodeType.macros.contains type = false := by
    rw [isDeclaration]
    decide
  rw [Node.scanItem, noDefinition, noMacro, if_neg Bool.false_ne_true, if_neg Bool.false_ne_true,
    if_pos (beq_iff_eq.mpr isDeclaration)]

/-- What stands beside a declarator does not matter to it. -/
theorem scanDeclaration_eq (decl : Node) (noExtern : decl.children.any Node.isExtern = false) :
    decl.scanDeclaration isName =
      decl.children.flatMap fun d => (declaring d).scanDeclaration isName := by
  rw [Node.scanDeclaration, if_neg (by simp [noExtern])]
  generalize decl.children = ds at noExtern
  induction ds with
  | nil => rfl
  | cons d ds ih =>
      obtain ⟨noExtern, others⟩ := Bool.or_eq_false_iff.mp ((List.any_cons ..).symm.trans noExtern)
      rw [List.flatMap_cons, ← ih others, Node.scanDeclaration, declaring,
        if_neg (by simp [noExtern]), ← List.filterMap_append, ← List.filter_append]
      rfl

theorem Shows.scanDeclaration_eq (shows : Shows n d) (only : OnlyIdentifiers isName) :
    (declaring n).scanDeclaration isName = if n.isPrototype then [] else [d.variable] := by
  have noExtern : n.isExtern = false := by
    rw [Node.isExtern, Bool.and_eq_false_iff]
    left
    cases shows with
    | _ type =>
        rw [type]
        decide
  rw [Node.scanDeclaration, declaring, if_neg (by simp [noExtern])]
  by_cases known : n.isPrototype = true
  · simp [shows.isDeclarator, Node.variableOf?, known]
  · simp [shows.isDeclarator, Node.variableOf?, known, shows.declaredName_eq only]

/-- Among the items at file scope a declaration that is not external gives what each of its
declarators gives by itself.  An object is defined in every case.  A function defines nothing exactly
if its parameter list stands behind the name, without parentheses, and it returns no more than
pointers: of the functions that C can declare these are the ones without parentheses. -/
theorem declaration_defines (only : OnlyIdentifiers isName) :
    (∀ before decl after, decl.type = NodeType.declaration → decl.children.any Node.isExtern = false →
      Node.scanScope isName (before ++ decl :: after) = Node.scanScope isName before ++
        (decl.children.flatMap fun d => (declaring d).scanDeclaration isName) ++
        Node.scanScope isName after) ∧
    ∀ n d, Shows n d →
      (¬d.DeclaresFunction → (declaring n).scanDeclaration isName = [d.variable]) ∧
      (d.DeclaresFunction →
        ((declaring n).scanDeclaration isName = [] ↔
          d.hasParens = false ∧ ∃ k, d.built = .function :: List.replicate k .pointer) ∧
        ((declaring n).scanDeclaration isName ≠ [] →
          (declaring n).scanDeclaration isName = [d.variable]) ∧
        (d.isDeclared = true → d.IsTyped →
          ((declaring n).scanDeclaration isName = [] ↔ d.hasParens = false))) := by
  constructor
  · intro before decl after isDeclaration noExtern
    simp only [Node.scanScope_eq]
    rw [List.flatMap_append, List.flatMap_cons, scanItem_of_declaration isDeclaration,
      scanDeclaration_eq decl noExtern, List.append_assoc]
  · intro n d shows
    have none : (declaring n).scanDeclaration isName = [] ↔ n.isPrototype = true := by
      rw [shows.scanDeclaration_eq only]
      split <;> simp [*]
    have one : n.isPrototype ≠ true → (declaring n).scanDeclaration isName = [d.variable] := by
      intro other
      rw [shows.scanDeclaration_eq only, if_neg other]
    refine ⟨fun object => one (mt shows.declaresFunction_of_isPrototype object), fun isFunction => ?_⟩
    refine ⟨none.trans shows.isPrototype_iff, fun some => one (mt none.mpr some), ?_⟩
    intro declared typed
    exact none.trans (shows.isPrototype_iff_of_isDeclared declared typed isFunction)

end

theorem onlyIdentifiers_plain : OnlyIdentifiers Grammar.plain.isName :=
  fun _ _ isName => beq_iff_eq.mp isName

/-- A function that returns pointers, and a pointer to a function with an initial value: what
`*f(void)` and `(*g)(int) = h` declare. -/
def pointers : Declarator := .pointer (.function (.name (lit "f") 1))

def pointed : Declarator := .init (.function (.parens (.pointer (.name (lit "g") 1))))

/-- The tree of `int *f(void), (*g)(int) = h;`. -/
def mixedDeclaration : Node :=
  ⟨NodeType.declaration, [], 0, [⟨lit "primitive_type", lit "int", 0, []⟩, pointers.node, pointed.node]⟩

theorem shows_pointers : Shows pointers.node pointers :=
  .pointer (by decide) (List.find?_cons_of_pos (by decide))
    (.function (by decide) (List.find?_cons_of_pos (by decide)) (.name (by decide)))

theorem shows_pointed : Shows pointed.node pointed :=
  .init (by decide) (List.find?_cons_of_pos (by decide))
    (.function (by decide) (List.find?_cons_of_pos (by decide))
      (.parens (by decide) (List.find?_cons_of_pos (by decide))
        (.pointer (by decide) (List.find?_cons_of_pos (by decide)) (.name (by decide)))))

theorem declaration_defines_mixed :
    Node.scanScope Grammar.plain.isName [mixedDeclaration] = [⟨lit "g", 1, .variable⟩] := by
  obtain ⟨whole, each⟩ := declaration_defines onlyIdentifiers_plain
  have nothing := ((each _ _ shows_pointers).2 (by decide)).2.2 (by decide)
    ⟨List.isChain_pair.mpr trivial, by decide⟩ |>.mpr (by decide)
  have one := (each _ _ shows_pointed).1 (by decide)
  have plain : (declaring ⟨lit "primitive_type", lit "int", 0, []⟩).scanDeclaration
      Grammar.plain.isName = [] := by decide
  have all := whole [] mixedDeclaration [] rfl (by decide)
  rw [mixedDeclaration] at all ⊢
  simp only [List.flatMap_cons, plain, nothing, one] at all
  exact all

/-- A function that returns a pointer to a function counts as a variable: `int (*f(void))(int);`. -/
theorem scan_returned_pointer :
    let f : Declarator := .function (.parens (.pointer (.function (.name (lit "f") 1))))
    f.DeclaresFunction ∧ f.isDeclared = true ∧ f.IsTyped ∧ Shows f.node f ∧
      Node.scanScope Grammar.plain.isName
        [⟨NodeType.declaration, [], 0, [⟨lit "primitive_type", lit "int", 0, []⟩, f.node]⟩] =
          [⟨lit "f", 1, .variable⟩] := by
  refine ⟨by decide, by decide, ⟨?_, by decide⟩, ?_, by decide⟩
  · exact List.isChain_cons_cons.mpr ⟨trivial, List.isChain_pair.mpr trivial⟩
  · exact .function (by decide) (List.find?_cons_of_pos (by decide))
      (.parens (by decide) (List.find?_cons_of_pos (by decide))
        (.pointer (by decide) (List.find?_cons_of_pos (by decide))
          (.function (by decide) (List.find?_cons_of_pos (by decide)) (.name (by decide)))))

end CSource

end SymbolHistory
