import Marshal.Plan.Basic

/-! # Plans in words

The listing of a whole plan, and the detailed view of one function with the encodings of its parts below each
other.
-/
set_option autoImplicit false
namespace Marshal

/-- An encoding on one line: what is declared, how it is encoded, and by which aggregate. -/
def Selection.summary (s : Selection) : Text :=
  (if s.borrowed then "&" else [] : Text) ++ s.decl ++ " <" ++ s.category.name ++ ">" ++
    (if s.aggregate.isEmpty then [] else " as " ++ s.aggregate : Text)

namespace FunctionPlan

def hasResult (f : FunctionPlan) : Bool := f.result.category ≠ .unit

def paramSummary (p : ParamPlan) : Text := p.name ++ ": " ++ p.selection.summary

def summary (f : FunctionPlan) : Text :=
  "  " ++ f.name ++ "(" ++ Text.join ", " (f.paramList.map paramSummary) ++ ")" ++
    (if f.hasResult then " -> " ++ f.result.summary else [] : Text) ++
    (if f.async then " async via " ++ f.trampoline else [] : Text)

end FunctionPlan

mutual
def Selection.detail (label : Text) (depth : Nat) : Selection → Text
  | ⟨decl, elem, aggregate, symbols, children, layout, flat, category, borrowed⟩ =>
    let s : Selection := ⟨decl, elem, aggregate, symbols, children, layout, flat, category, borrowed⟩
    let indent := Text.times depth "  "
    indent ++ label ++ ": " ++ s.summary ++ "  size=" ++ Text.ofNat layout.size.toNat ++ " align=" ++
      Text.ofNat layout.align.toNat ++ " flat=" ++ Text.ofInt flat ++ "\n" ++
      symbols.flatMap (fun symbol => (indent ++ "  " ++ symbol ++ "\n" : Text)) ++
      childDetails 0 (depth + 1) children

def childDetails (index depth : Nat) : List Selection → Text
  | [] => []
  | s :: rest => s.detail (Text.ofNat index) depth ++ childDetails (index + 1) depth rest
end

def FunctionPlan.detail (f : FunctionPlan) : Text :=
  f.symbol ++ "\n  " ++ f.signature ++ "\n" ++
    (if f.async then "  completes through " ++ f.trampoline ++ "\n" else [] : Text) ++ "\n" ++
    f.paramList.flatMap (fun p => p.selection.detail p.name 1) ++
    (if f.hasResult then f.result.detail "result" 1 else [])

namespace OpaquePlan

def abilities (o : OpaquePlan) : List Text :=
  (if o.equatable then [Text.ofString "eq"] else []) ++
    (if o.hashable then [Text.ofString "hash"] else []) ++
    (if o.sendable then [Text.ofString "send"] else [])

def summary (o : OpaquePlan) : Text := "  " ++ o.name ++ " [" ++ Text.join "," o.abilities ++ "]\n"

end OpaquePlan

namespace Plan

def listing (title : Text) (items : List Text) : Text :=
  if items.isEmpty then []
  else "\n" ++ title ++ " (" ++ Text.ofNat items.length ++ ")\n" ++
    items.flatMap fun item => ("  " ++ item ++ "\n" : Text)

def render (p : Plan) : Text :=
  "bridge" ++ (if p.name.isEmpty then [] else " " ++ p.name : Text) ++ "\n\n" ++
    (if p.opaqueList.isEmpty then []
      else "Opaque types\n" ++ p.opaqueList.flatMap OpaquePlan.summary ++ "\n" : Text) ++
    "Functions\n" ++ p.functionList.flatMap (fun f => (f.summary ++ "\n" : Text)) ++
    listing "Vectors" p.vectors ++ listing "Options" p.options ++ listing "Symbols" p.symbolList

end Plan

end Marshal
