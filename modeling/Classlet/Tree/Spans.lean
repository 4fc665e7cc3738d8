import Classlet.Tree
/-!
# The spans of an expression
-/

namespace Classlet

mutual
/-- The spans of an expression and of everything below it, parent first. -/
def Expr.spans : Expr → List Span
  | .int _ s | .bool _ s | .null s => [s]
  | .ident name _ => [name.span]
  | .call _ args s _ | .methodCall _ _ args s _ _ | .new _ args s _ => s :: Expr.listSpans args
  | .ite c t e s => s :: (c.spans ++ t.spans ++ e.spans)
  | .binary _ l r s => s :: (l.spans ++ r.spans)
  | .not e s | .print e s => s :: e.spans

def Expr.listSpans : List Expr → List Span
  | [] => []
  | e :: es => e.spans ++ Expr.listSpans es
end

/-- The spans of an expression, separated by blanks. -/
def Expr.spansText (e : Expr) : String := " ".intercalate (e.spans.map Span.text)

end Classlet
