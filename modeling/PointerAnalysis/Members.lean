/-!
# Named members

Documents hold records as lists of named members, in which a name may be repeated by mistake.
-/

namespace PointerAnalysis

/-- The member of a name, if there is one; the whole is `none` if the name is repeated. -/
def onlyMember? {α : Type} (members : List (String × α)) (name : String) : Option (Option α) :=
  match members.filter fun (key, _) => key = name with
  | [] => some none
  | [(_, a)] => some (some a)
  | _ => none

end PointerAnalysis
