import Cloze.Grammar.Definition

/-!
# A language laid out by indentation

A small imperative language in which blocks are shown by indentation:

    file_input:    stmt+
    stmt:          simple_stmt | compound_stmt
    simple_stmt:   small_stmt NEWLINE
    small_stmt:    expr_stmt | 'pass' | 'break' | 'continue' | return_stmt
    expr_stmt:     expr ['=' expr]
    return_stmt:   'return' [expr]
    compound_stmt: if_stmt | while_stmt | for_stmt | funcdef
    if_stmt:       'if' expr ':' suite ('elif' expr ':' suite)* ['else' ':' suite]
    while_stmt:    'while' expr ':' suite
    for_stmt:      'for' NAME 'in' expr ':' suite
    funcdef:       'def' NAME '(' [NAME (',' NAME)*] ')' ':' suite
    suite:         NEWLINE INDENT stmt+ DEDENT
    expr:          arith (comp_op arith)*
    comp_op:       '<' | '>' | '==' | '!=' | '<=' | '>='
    arith:         term (('+' | '-') term)*
    term:          factor (('*' | '/' | '%') factor)*
    factor:        ['-'] atom
    atom:          NAME [trailer] | NUMBER | STRING | '(' expr ')' | 'True' | 'False' | 'None'
    trailer:       '(' [arglist] ')'
    arglist:       expr (',' expr)*

No rule refers to itself at its left edge.
-/

namespace Cloze.Grammar.Offside

def lit (text : String) : Item := .literal text .once

def cat (name : String) : Item := .category name .once

def ref (name : String) : Item := .rule name .once

def opt (items : List Item) : Item := .option [items] .once

def manyOf (items : List Item) : Item := .group [items] .star

/-- One of several fixed texts. -/
def oneOf (texts : List String) : Body := texts.map fun text => [lit text]

def rules : List (String × Body) := [
  ("file_input", [[.rule "stmt" .plus]]),
  ("stmt", [[ref "simple_stmt"], [ref "compound_stmt"]]),
  ("simple_stmt", [[ref "small_stmt", cat "NEWLINE"]]),
  ("small_stmt",
    [[ref "expr_stmt"], [lit "pass"], [lit "break"], [lit "continue"], [ref "return_stmt"]]),
  ("expr_stmt", [[ref "expr", opt [lit "=", ref "expr"]]]),
  ("return_stmt", [[lit "return", opt [ref "expr"]]]),
  ("compound_stmt", [[ref "if_stmt"], [ref "while_stmt"], [ref "for_stmt"], [ref "funcdef"]]),
  ("if_stmt", [[
    lit "if", ref "expr", lit ":", ref "suite",
    manyOf [lit "elif", ref "expr", lit ":", ref "suite"],
    opt [lit "else", lit ":", ref "suite"]]]),
  ("while_stmt", [[lit "while", ref "expr", lit ":", ref "suite"]]),
  ("for_stmt", [[lit "for", cat "NAME", lit "in", ref "expr", lit ":", ref "suite"]]),
  ("funcdef", [[
    lit "def", cat "NAME", lit "(",
    opt [cat "NAME", manyOf [lit ",", cat "NAME"]],
    lit ")", lit ":", ref "suite"]]),
  ("suite", [[cat "NEWLINE", cat "INDENT", .rule "stmt" .plus, cat "DEDENT"]]),
  ("expr", [[ref "arith", manyOf [ref "comp_op", ref "arith"]]]),
  ("comp_op", oneOf ["<", ">", "==", "!=", "<=", ">="]),
  ("arith", [[ref "term", manyOf [.group (oneOf ["+", "-"]) .once, ref "term"]]]),
  ("term", [[ref "factor", manyOf [.group (oneOf ["*", "/", "%"]) .once, ref "factor"]]]),
  ("factor", [[opt [lit "-"], ref "atom"]]),
  ("atom", [
    [cat "NAME", opt [ref "trailer"]], [cat "NUMBER"], [cat "STRING"],
    [lit "(", ref "expr", lit ")"], [lit "True"], [lit "False"], [lit "None"]]),
  ("trailer", [[lit "(", opt [ref "arglist"], lit ")"]]),
  ("arglist", [[ref "expr", manyOf [lit ",", ref "expr"]]])]

def roles : List (String × Role) := [
  ("NEWLINE", .newline), ("INDENT", .indent), ("DEDENT", .dedent), ("=", .assign),
  ("NAME", .name), ("NUMBER", .number), ("STRING", .text), ("stmt", .statement)]

/-- The groups in which the symbols are offered. -/
def tagged : List (Tag × List String) := [
  (⟨"value", 0xFF6A8759, 1⟩, ["NAME", "NUMBER", "STRING"]),
  (⟨"keyword", 0xFFCC7832, 3⟩,
    ["if", "elif", "else", "while", "for", "in", "def", "return", "pass", "break", "continue",
      "True", "False", "None"]),
  (⟨"operator", 0xFFA9B7C6, 4⟩,
    ["=", "+", "-", "*", "/", "%", "<", ">", "==", "!=", "<=", ">="]),
  (⟨"punctuation", 0xFF9E9E9E, 5⟩, ["(", ")", ":", ","]),
  (⟨"layout", 0xFF808080, 6⟩, ["NEWLINE", "INDENT", "DEDENT"])]

def definition : Definition where
  rules := rules
  roles := roles
  tags := tagged.flatMap fun (tag, texts) => texts.map (·, tag)

/-- The grammar of the language. -/
def grammar : Except DefinitionError Grammar :=
  definition.build

end Cloze.Grammar.Offside
