import Mapsmith.Script.Tree

/-!
# Outlines

The shape of a tree as text: a name for each rule and what it is made of, between
parentheses.
-/

namespace Mapsmith.Script

/-- Texts between parentheses, with a space between each two. -/
def enclosed (items : List String) : String := "(" ++ " ".intercalate items ++ ")"

mutual

def Expression.outline : Expression → String
  | .chain first .nil => first.outline
  | .chain first rest => enclosed ("binary" :: first.outline :: rest.outlines)

def Links.outlines : Links → List String
  | .nil => []
  | .cons op operand rest => op.val.name :: operand.outline :: rest.outlines

def Operand.outline : Operand → String
  | .unary op operand => enclosed ["unary", op.val.name, operand.outline]
  | .literal kind text => enclosed [kind.name, text]
  | .name id => enclosed ["id", id]
  | .call id .nil => enclosed ["call", id]
  | .call id arguments => enclosed ["call", id, ", ".intercalate arguments.outlines]
  | .element id index => enclosed ["index", id, index.outline]
  | .function id => enclosed ["function", id]
  | .parens inner => enclosed ["parens", inner.outline]

def Arguments.outlines : Arguments → List String
  | .nil => []
  | .cons argument rest => argument.outline :: rest.outlines

end

mutual

def Statement.outline : Statement → String
  | .action action => action.outline
  | .debug action => enclosed ["debug", action.outline]
  | .exitwhen condition => enclosed ["exitwhen", condition.outline]
  | .returns none => enclosed ["return"]
  | .returns (some value) => enclosed ["return", value.outline]

def Action.outline : Action → String
  | .set id none value => enclosed ["set", id, value.outline]
  | .set id (some index) value =>
    enclosed ["set", id, enclosed ["at", index.outline], value.outline]
  | .call id arguments => enclosed ["do", (Operand.call id arguments).outline]
  | .branch condition body alternative =>
    enclosed ("cond" :: enclosed ["if", condition.outline, enclosed body.outlines] ::
      alternative.outlines)
  | .loop body => enclosed ["loop", enclosed body.outlines]

def Block.outlines : Block → List String
  | .nil => []
  | .cons statement rest => statement.outline :: rest.outlines

def Alternative.outlines : Alternative → List String
  | .nothing => []
  | .otherwise body => [enclosed ["else", enclosed body.outlines]]
  | .elseif condition body alternative =>
    enclosed ["elseif", condition.outline, enclosed body.outlines] :: alternative.outlines

end

end Mapsmith.Script
