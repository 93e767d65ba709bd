import Argot.Source.Tree
import Argot.Text.Scalar
import Argot.Text.Word
/-!
# Kind — what the conversion rules call a node

The rules look at a small set of kinds and never at the types of a grammar.  Most kinds follow from the type alone.  A
member access is a method call where it is what a call calls, and a call is a decorator where a decorator makes it.
A token without a name is a keyword if it is spelled like a word, else an operator.
-/
namespace Argot

/-- The kind of a node. -/
inductive Kind where
  | identifier
  | propertyName
  | keyword
  | operator
  | stringLiteral
  | templateLiteral
  | comment
  | decorator
  | propertyAssignment
  | methodDeclaration
  | functionDeclaration
  | classDeclaration
  | variableDeclaration
  | typeReference
  | markupElement
  | memberAccess
  | methodCall
  | callExpression
  | importSpecifier
  | exportSpecifier
  | other
  deriving DecidableEq, Repr

namespace Kind

def all : List Kind :=
  [.identifier, .propertyName, .keyword, .operator, .stringLiteral, .templateLiteral, .comment, .decorator,
    .propertyAssignment, .methodDeclaration, .functionDeclaration, .classDeclaration, .variableDeclaration,
    .typeReference, .markupElement, .memberAccess, .methodCall, .callExpression, .importSpecifier, .exportSpecifier,
    .other]

def name : Kind → String
  | .identifier => "identifier"
  | .propertyName => "property_name"
  | .keyword => "keyword"
  | .operator => "operator"
  | .stringLiteral => "string_literal"
  | .templateLiteral => "template_literal"
  | .comment => "comment"
  | .decorator => "decorator"
  | .propertyAssignment => "property_assignment"
  | .methodDeclaration => "method_declaration"
  | .functionDeclaration => "function_declaration"
  | .classDeclaration => "class_declaration"
  | .variableDeclaration => "variable_declaration"
  | .typeReference => "type_reference"
  | .markupElement => "markup_element"
  | .memberAccess => "member_access"
  | .methodCall => "method_call"
  | .callExpression => "call_expression"
  | .importSpecifier => "import_specifier"
  | .exportSpecifier => "export_specifier"
  | .other => "other"

def ofScalar (given : Scalar) : Except UnknownName Kind :=
  memberNamed "NodeKind" all name given

/-- Kinds whose text is a name that somebody could have written by hand. -/
def isNameLike : Kind → Bool
  | .identifier | .propertyName | .typeReference => true
  | _ => false

def isDeclaration : Kind → Bool
  | .functionDeclaration | .classDeclaration => true
  | _ => false

def direct? : String → Option Kind
  | "identifier" | "statement_identifier" => some .identifier
  | "property_identifier" | "private_property_identifier" | "shorthand_property_identifier"
  | "shorthand_property_identifier_pattern" => some .propertyName
  | "type_identifier" => some .typeReference
  | "string" => some .stringLiteral
  | "template_string" => some .templateLiteral
  | "comment" | "html_comment" => some .comment
  | "decorator" => some .decorator
  | "pair" => some .propertyAssignment
  | "method_definition" | "method_signature" | "abstract_method_signature" => some .methodDeclaration
  | "function_declaration" | "generator_function_declaration" => some .functionDeclaration
  | "class_declaration" | "abstract_class_declaration" => some .classDeclaration
  | "lexical_declaration" | "variable_declaration" | "variable_declarator" => some .variableDeclaration
  | "jsx_opening_element" | "jsx_closing_element" | "jsx_self_closing_element" => some .markupElement
  | "import_specifier" => some .importSpecifier
  | "export_specifier" => some .exportSpecifier
  | _ => none

def keywordTypes : List String :=
  ["this", "super", "true", "false", "null", "undefined", "import", "predefined_type"]

/-- A text without the line feed at its end, if there is one. -/
def withoutFinalNewline (cs : List Char) : List Char :=
  if cs.getLast? == some '\n' then cs.dropLast else cs

/-- Whether a token is spelled like a word; a line feed at its end does not count. -/
def isWordToken (type : String) : Bool :=
  match withoutFinalNewline type.toList with
  | c :: rest => Text.isNameStart c && rest.all Text.isNameChar
  | [] => false

/-- The kind of a node by its type, whether it is named, whether it has no children, the field it fills, and the type of
its parent. -/
def of (type : String) (named childless : Bool) (slot parentType : Option String) : Kind :=
  if type == "member_expression" then
    if parentType == some "call_expression" && slot == some "function" then .methodCall else .memberAccess
  else if type == "call_expression" then
    if parentType == some "decorator" then .decorator else .callExpression
  else match (if named then direct? type else none) with
    | some k => k
    | none =>
      if !childless then .other
      else if named then (if keywordTypes.contains type then .keyword else .other)
      else if isWordToken type then .keyword else .operator

end Kind
end Argot
