/-!
# Kinds of tokens

Keywords and punctuators are tokens of a fixed text; the other tokens are classes of texts.

* `Keyword`, `Punctuator`: the tokens of a fixed text, each with its `text` and its `name`.
* `TokenKind`: what a token is.
-/

namespace LambdaLift

/-- The reserved words. -/
inductive Keyword
  | break_
  | case_
  | catch_
  | class_
  | const_
  | continue_
  | debugger_
  | default_
  | delete_
  | do_
  | else_
  | export_
  | extends_
  | false_
  | finally_
  | for_
  | function_
  | if_
  | import_
  | in_
  | instanceof_
  | new_
  | null_
  | return_
  | super_
  | switch_
  | this_
  | throw_
  | true_
  | try_
  | typeof_
  | var_
  | void_
  | while_
  | with_
  | let_
deriving DecidableEq, Inhabited

namespace Keyword

/-- Every keyword, in alphabetic order but for `let`, which is reserved in strict code only. -/
def all : List Keyword :=
  [
    .break_, .case_, .catch_, .class_, .const_, .continue_, .debugger_, .default_, .delete_,
    .do_, .else_, .export_, .extends_, .false_, .finally_, .for_, .function_, .if_, .import_,
    .in_, .instanceof_, .new_, .null_, .return_, .super_, .switch_, .this_, .throw_, .true_,
    .try_, .typeof_, .var_, .void_, .while_, .with_, .let_]

/-- The word itself. -/
def text : Keyword → String
  | break_ => "break"
  | case_ => "case"
  | catch_ => "catch"
  | class_ => "class"
  | const_ => "const"
  | continue_ => "continue"
  | debugger_ => "debugger"
  | default_ => "default"
  | delete_ => "delete"
  | do_ => "do"
  | else_ => "else"
  | export_ => "export"
  | extends_ => "extends"
  | false_ => "false"
  | finally_ => "finally"
  | for_ => "for"
  | function_ => "function"
  | if_ => "if"
  | import_ => "import"
  | in_ => "in"
  | instanceof_ => "instanceof"
  | new_ => "new"
  | null_ => "null"
  | return_ => "return"
  | super_ => "super"
  | switch_ => "switch"
  | this_ => "this"
  | throw_ => "throw"
  | true_ => "true"
  | try_ => "try"
  | typeof_ => "typeof"
  | var_ => "var"
  | void_ => "void"
  | while_ => "while"
  | with_ => "with"
  | let_ => "let"

/-- The name of the token kind. -/
def name : Keyword → String
  | break_ => "BreakKeyword"
  | case_ => "CaseKeyword"
  | catch_ => "CatchKeyword"
  | class_ => "ClassKeyword"
  | const_ => "ConstKeyword"
  | continue_ => "ContinueKeyword"
  | debugger_ => "DebuggerKeyword"
  | default_ => "DefaultKeyword"
  | delete_ => "DeleteKeyword"
  | do_ => "DoKeyword"
  | else_ => "ElseKeyword"
  | export_ => "ExportKeyword"
  | extends_ => "ExtendsKeyword"
  | false_ => "FalseKeyword"
  | finally_ => "FinallyKeyword"
  | for_ => "ForKeyword"
  | function_ => "FunctionKeyword"
  | if_ => "IfKeyword"
  | import_ => "ImportKeyword"
  | in_ => "InKeyword"
  | instanceof_ => "InstanceOfKeyword"
  | new_ => "NewKeyword"
  | null_ => "NullKeyword"
  | return_ => "ReturnKeyword"
  | super_ => "SuperKeyword"
  | switch_ => "SwitchKeyword"
  | this_ => "ThisKeyword"
  | throw_ => "ThrowKeyword"
  | true_ => "TrueKeyword"
  | try_ => "TryKeyword"
  | typeof_ => "TypeOfKeyword"
  | var_ => "VarKeyword"
  | void_ => "VoidKeyword"
  | while_ => "WhileKeyword"
  | with_ => "WithKeyword"
  | let_ => "LetKeyword"

/-- The keyword that is written `word`. -/
def ofText? (word : String) : Option Keyword :=
  all.find? (·.text = word)

end Keyword

/-- The punctuators and operators that are not words. -/
inductive Punctuator
  | openBrace
  | closeBrace
  | openParen
  | closeParen
  | openBracket
  | closeBracket
  | dot
  | ellipsis
  | semicolon
  | comma
  | questionDot
  | less
  | greater
  | lessEqual
  | greaterEqual
  | equalEqual
  | bangEqual
  | equalEqualEqual
  | bangEqualEqual
  | arrow
  | plus
  | minus
  | star
  | starStar
  | slash
  | percent
  | plusPlus
  | minusMinus
  | shiftLeft
  | shiftRight
  | shiftRightZero
  | ampersand
  | bar
  | caret
  | bang
  | tilde
  | andAnd
  | orOr
  | question
  | questionQuestion
  | colon
  | equal
  | plusEqual
  | minusEqual
  | starEqual
  | starStarEqual
  | slashEqual
  | percentEqual
  | shiftLeftEqual
  | shiftRightEqual
  | shiftRightZeroEqual
  | ampersandEqual
  | barEqual
  | caretEqual
  | andAndEqual
  | orOrEqual
  | questionQuestionEqual
deriving DecidableEq, Inhabited

namespace Punctuator

/-- Every punctuator; the assignment operators come last, plain assignment first among them. -/
def all : List Punctuator :=
  [
    .openBrace, .closeBrace, .openParen, .closeParen, .openBracket, .closeBracket, .dot,
    .ellipsis, .semicolon, .comma, .questionDot, .less, .greater, .lessEqual, .greaterEqual,
    .equalEqual, .bangEqual, .equalEqualEqual, .bangEqualEqual, .arrow, .plus, .minus, .star,
    .starStar, .slash, .percent, .plusPlus, .minusMinus, .shiftLeft, .shiftRight,
    .shiftRightZero, .ampersand, .bar, .caret, .bang, .tilde, .andAnd, .orOr, .question,
    .questionQuestion, .colon, .equal, .plusEqual, .minusEqual, .starEqual, .starStarEqual,
    .slashEqual, .percentEqual, .shiftLeftEqual, .shiftRightEqual, .shiftRightZeroEqual,
    .ampersandEqual, .barEqual, .caretEqual, .andAndEqual, .orOrEqual, .questionQuestionEqual]

/-- The characters of the punctuator. -/
def text : Punctuator → String
  | openBrace => "\x7b"
  | closeBrace => "\x7d"
  | openParen => "("
  | closeParen => ")"
  | openBracket => "["
  | closeBracket => "]"
  | dot => "."
  | ellipsis => "..."
  | semicolon => ";"
  | comma => ","
  | questionDot => "?."
  | less => "<"
  | greater => ">"
  | lessEqual => "<="
  | greaterEqual => ">="
  | equalEqual => "=="
  | bangEqual => "!="
  | equalEqualEqual => "==="
  | bangEqualEqual => "!=="
  | arrow => "=>"
  | plus => "+"
  | minus => "-"
  | star => "*"
  | starStar => "**"
  | slash => "/"
  | percent => "%"
  | plusPlus => "++"
  | minusMinus => "--"
  | shiftLeft => "<<"
  | shiftRight => ">>"
  | shiftRightZero => ">>>"
  | ampersand => "&"
  | bar => "|"
  | caret => "^"
  | bang => "!"
  | tilde => "~"
  | andAnd => "&&"
  | orOr => "||"
  | question => "?"
  | questionQuestion => "??"
  | colon => ":"
  | equal => "="
  | plusEqual => "+="
  | minusEqual => "-="
  | starEqual => "*="
  | starStarEqual => "**="
  | slashEqual => "/="
  | percentEqual => "%="
  | shiftLeftEqual => "<<="
  | shiftRightEqual => ">>="
  | shiftRightZeroEqual => ">>>="
  | ampersandEqual => "&="
  | barEqual => "|="
  | caretEqual => "^="
  | andAndEqual => "&&="
  | orOrEqual => "||="
  | questionQuestionEqual => "??="

/-- The name of the token kind. -/
def name : Punctuator → String
  | openBrace => "OpenBraceToken"
  | closeBrace => "CloseBraceToken"
  | openParen => "OpenParenToken"
  | closeParen => "CloseParenToken"
  | openBracket => "OpenBracketToken"
  | closeBracket => "CloseBracketToken"
  | dot => "DotToken"
  | ellipsis => "DotDotDotToken"
  | semicolon => "SemicolonToken"
  | comma => "CommaToken"
  | questionDot => "QuestionDotToken"
  | less => "LessThanToken"
  | greater => "GreaterThanToken"
  | lessEqual => "LessThanEqualsToken"
  | greaterEqual => "GreaterThanEqualsToken"
  | equalEqual => "EqualsEqualsToken"
  | bangEqual => "ExclamationEqualsToken"
  | equalEqualEqual => "EqualsEqualsEqualsToken"
  | bangEqualEqual => "ExclamationEqualsEqualsToken"
  | arrow => "EqualsGreaterThanToken"
  | plus => "PlusToken"
  | minus => "MinusToken"
  | star => "AsteriskToken"
  | starStar => "AsteriskAsteriskToken"
  | slash => "SlashToken"
  | percent => "PercentToken"
  | plusPlus => "PlusPlusToken"
  | minusMinus => "MinusMinusToken"
  | shiftLeft => "LessThanLessThanToken"
  | shiftRight => "GreaterThanGreaterThanToken"
  | shiftRightZero => "GreaterThanGreaterThanGreaterThanToken"
  | ampersand => "AmpersandToken"
  | bar => "BarToken"
  | caret => "CaretToken"
  | bang => "ExclamationToken"
  | tilde => "TildeToken"
  | andAnd => "AmpersandAmpersandToken"
  | orOr => "BarBarToken"
  | question => "QuestionToken"
  | questionQuestion => "QuestionQuestionToken"
  | colon => "ColonToken"
  | equal => "EqualsToken"
  | plusEqual => "PlusEqualsToken"
  | minusEqual => "MinusEqualsToken"
  | starEqual => "AsteriskEqualsToken"
  | starStarEqual => "AsteriskAsteriskEqualsToken"
  | slashEqual => "SlashEqualsToken"
  | percentEqual => "PercentEqualsToken"
  | shiftLeftEqual => "LessThanLessThanEqualsToken"
  | shiftRightEqual => "GreaterThanGreaterThanEqualsToken"
  | shiftRightZeroEqual => "GreaterThanGreaterThanGreaterThanEqualsToken"
  | ampersandEqual => "AmpersandEqualsToken"
  | barEqual => "BarEqualsToken"
  | caretEqual => "CaretEqualsToken"
  | andAndEqual => "AmpersandAmpersandEqualsToken"
  | orOrEqual => "BarBarEqualsToken"
  | questionQuestionEqual => "QuestionQuestionEqualsToken"

/-- An assignment that reads its target first, such as `+=`. -/
def isCompoundAssignment : Punctuator → Bool
  | plusEqual | minusEqual | starEqual | starStarEqual | slashEqual | percentEqual
  | shiftLeftEqual | shiftRightEqual | shiftRightZeroEqual | ampersandEqual | barEqual
  | caretEqual | andAndEqual | orOrEqual | questionQuestionEqual => true
  | _ => false

/-- Plain or compound assignment. -/
def isAssignment (p : Punctuator) : Bool :=
  p = equal || p.isCompoundAssignment

end Punctuator

/-- What a token is. A template with substitutions is cut into a head, middles and a tail. -/
inductive TokenKind
  | unknown
  | endOfFile
  | number
  | string
  | regex
  | template
  | templateHead
  | templateMiddle
  | templateTail
  | punctuator (p : Punctuator)
  | identifier
  | keyword (k : Keyword)
deriving DecidableEq, Inhabited

namespace TokenKind

/-- The name of the kind. -/
def name : TokenKind → String
  | unknown => "Unknown"
  | endOfFile => "EndOfFileToken"
  | number => "NumericLiteral"
  | string => "StringLiteral"
  | regex => "RegularExpressionLiteral"
  | template => "NoSubstitutionTemplateLiteral"
  | templateHead => "TemplateHead"
  | templateMiddle => "TemplateMiddle"
  | templateTail => "TemplateTail"
  | punctuator p => p.name
  | identifier => "Identifier"
  | keyword k => k.name

/-- Every kind of token. -/
def all : List TokenKind :=
  [unknown, endOfFile, number, string, regex, template, templateHead, templateMiddle,
    templateTail] ++ Punctuator.all.map punctuator ++ [identifier] ++ Keyword.all.map keyword

/-- The text of a keyword. -/
def keywordText? : TokenKind → Option String
  | keyword k => some k.text
  | _ => none

/-- The text of a punctuator. -/
def punctuatorText? : TokenKind → Option String
  | punctuator p => some p.text
  | _ => none

/-- The text of a token of a fixed text. -/
def text? : TokenKind → Option String
  | keyword k => some k.text
  | punctuator p => some p.text
  | _ => none

/-- A reserved word. -/
def isKeyword : TokenKind → Bool
  | keyword _ => true
  | _ => false

/-- A punctuator or an operator that is not a word. -/
def isPunctuator : TokenKind → Bool
  | punctuator _ => true
  | _ => false

/-- A number, a string, a regular expression or a template without substitutions. -/
def isLiteral : TokenKind → Bool
  | number | string | regex | template => true
  | _ => false

/-- A template or a piece of one. -/
def isTemplate : TokenKind → Bool
  | template | templateHead | templateMiddle | templateTail => true
  | _ => false

/-- A word: an identifier or a keyword. -/
def isWord : TokenKind → Bool
  | identifier | keyword _ => true
  | _ => false

/-- Plain or compound assignment. -/
def isAssignment : TokenKind → Bool
  | punctuator p => p.isAssignment
  | _ => false

/-- An assignment that reads its target first. -/
def isCompoundAssignment : TokenKind → Bool
  | punctuator p => p.isCompoundAssignment
  | _ => false

end TokenKind

end LambdaLift
