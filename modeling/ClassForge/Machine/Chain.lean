import ClassForge.Machine.State

namespace ClassForge

/-- A jump whose target is not known yet: its position, and the state in which it is taken. -/
structure JumpSite where
  pc : Nat
  state : State

abbrev Chain := List JumpSite

namespace Chain

def undefineFrom (chain : Chain) (register : UInt16) : Chain :=
  chain.map fun site => { site with state := site.state.undefineFrom register }

def merge : Chain → Chain → Except Fault Chain
  | [], chain => .ok chain
  | chain, [] => .ok chain
  | site :: rest, other :: more =>
    if site.state.depth ≠ other.state.depth ∨ site.state.locks ≠ other.state.locks then
      .error (.chainsDiffer site.pc other.pc)
    else .ok (List.merge (site :: rest) (other :: more) fun a b => b.pc ≤ a.pc)

def describe (chain : Chain) : String :=
  match chain with
  | [] => "None"
  | sites =>
    let sites := sites.map fun site =>
      s!"JumpSite \x7b pc: {site.pc}, state: {site.state.describe} \x7d"
    let sites := ", ".intercalate sites
    s!"Some(Chain \x7b sites: [{sites}] \x7d)"

end Chain

end ClassForge
