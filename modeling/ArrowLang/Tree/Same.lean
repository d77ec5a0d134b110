import ArrowLang.Tree.Expr

/-! Equality of trees. Tokens are equal with their positions, floats are compared as numbers. -/
namespace ArrowLang

def Stray.same : Stray → Stray → Bool
  | .atom a, .atom b => a == b
  | .literal a, .literal b => a.same b
  | _, _ => false

def Pattern.same : Pattern → Pattern → Bool
  | .literal a, .literal b => a.same b
  | .name a, .name b => a == b
  | .stray a, .stray b => a.same b
  | _, _ => false

mutual

def Expr.same : Expr → Expr → Bool
  | .mk n s, f => n.same f.node && s == f.typ
termination_by structural e => e

def Node.same : Node → Node → Bool
  | .literal a, m => match m with
    | .literal b => a.same b
    | _ => false
  | .name t, m => match m with
    | .name u => t == u
    | _ => false
  | .unary o a, m => match m with
    | .unary p b => o == p && a.same b
    | _ => false
  | .binary o a b, m => match m with
    | .binary p c d => o == p && a.same c && b.same d
    | _ => false
  | .logical o a b, m => match m with
    | .logical p c d => o == p && a.same c && b.same d
    | _ => false
  | .apply o a b, m => match m with
    | .apply p c d => o == p && a.same c && b.same d
    | _ => false
  | .function cs, m => match m with
    | .function ds => sameCases cs ds
    | _ => false
  | .tuple es, m => match m with
    | .tuple fs => sameExprs es fs
    | _ => false
  | .list es, m => match m with
    | .list fs => sameExprs es fs
    | _ => false
  | .stray a, m => match m with
    | .stray b => a == b
    | _ => false
termination_by structural n => n

def Case.same : Case → Case → Bool
  | .mk p gs, c => p.same c.pattern && sameGuards gs c.guards
termination_by structural c => c

def Guard.same : Guard → Guard → Bool
  | .mk c v, g => c.same g.condition && v.same g.value
termination_by structural g => g

def sameExprs : List Expr → List Expr → Bool
  | [], fs => fs.isEmpty
  | e :: es, fs => match fs with
    | f :: fs => e.same f && sameExprs es fs
    | [] => false
termination_by structural es => es

def sameCases : List Case → List Case → Bool
  | [], ds => ds.isEmpty
  | c :: cs, ds => match ds with
    | d :: ds => c.same d && sameCases cs ds
    | [] => false
termination_by structural cs => cs

def sameGuards : List Guard → List Guard → Bool
  | [], hs => hs.isEmpty
  | g :: gs, hs => match hs with
    | h :: hs => g.same h && sameGuards gs hs
    | [] => false
termination_by structural gs => gs

end

def Decl.same : Decl → Decl → Bool
  | .constant n t e, .constant m u f => n == m && t == u && e.same f
  | .evaluated e, .evaluated f => e.same f
  | .stray a, .stray b => a.same b
  | _, _ => false

def sameDecls : List Decl → List Decl → Bool
  | [], [] => true
  | a :: as, b :: bs => a.same b && sameDecls as bs
  | _, _ => false

end ArrowLang
