import CallFill.Tree.Place

/-! # Roles of children

What the children of calls, argument lists, member accesses and `typeof` expressions stand
for. -/

namespace CallFill.Place

/-! ## Calls -/

/-- What a call calls: its first child that is not an argument list. -/
def callee? (call : Place) : Option Place := call.children.find? (!·.isKind .argumentList)

def argumentList? (call : Place) : Option Place := call.child? .argumentList

/-- The callee, if it is a member access. -/
def memberAccess? (call : Place) : Option Place := call.callee?.filter (·.isKind .memberAccess)

/-! ## Argument lists -/

def arguments (list : Place) : List Place := list.children.filter (·.isKind .argument)

/-- The call that an argument list belongs to: its parent, if that is a call. -/
def owner? (list : Place) : Option Place := list.parent?.filter (·.isKind .invocation)

/-! ## Member accesses -/

/-- The expression before the dot. -/
def receiver? (access : Place) : Option Place := access.children.head?

/-- The name after the dot, type arguments included. -/
def member? (access : Place) : Option Place := access.children[1]?

/-- The identifier after the dot. -/
def memberName? (access : Place) : Option String :=
  (access.member?.bind (·.childToken? .identifier)).map (·.text)

/-! ## Type operands -/

def typeOperand? (typeOf : Place) : Option Place :=
  typeOf.children.find? (·.focus.kind.isType)

end CallFill.Place
