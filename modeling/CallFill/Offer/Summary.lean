import CallFill.Offer.Rewrite

/-! # Summaries of actions -/

namespace CallFill.Offer

/-- What an action says of itself. A group has its choices for children. -/
inductive Summary where
  | mk (title : String) (parameterTypes : List String) (children : List Summary)
deriving Repr

namespace Summary

def title : Summary → String
  | .mk t _ _ => t

def parameterTypes : Summary → List String
  | .mk _ ts _ => ts

def children : Summary → List Summary
  | .mk _ _ cs => cs

def ofRewrite (r : Rewrite) : Summary := .mk r.title r.parameterTypes []

end Summary

def Action.summary : Action → Summary
  | .rewrite r => .ofRewrite r
  | .group title rs => .mk title [] (rs.map Summary.ofRewrite)

end CallFill.Offer
