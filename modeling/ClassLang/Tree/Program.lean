import ClassLang.Tree.Stmt

/-!
# Modules and their declarations

A program is a list of modules in discovery order; a module is a path and its top-level
items. Flags are independent of the rest of a declaration, so ill-formed combinations such
as an abstract method with a body can be written down; registration rejects them.
-/

namespace ClassLang

/-- A parameter of a function or method. -/
structure Param where
  name : String
  type : TypeExpr
  span : Span

/-- A free function or a method. Without a result type it yields `void`. -/
structure FunctionDecl where
  name : Ident
  params : List Param
  result : Option TypeExpr
  body : Option (List Stmt)
  isConst : Bool
  isAbstract : Bool
  span : Span

/-- A template parameter; without a bound it is bounded by the root class. -/
structure TemplateDecl where
  name : String
  bound : Option TypeExpr

/-- A field of a class. -/
structure FieldDecl where
  name : String
  type : TypeExpr
  span : Span

/-- A class. Without bases it derives from the root class. -/
structure ClassDecl where
  name : Ident
  templates : List TemplateDecl
  bases : List TypeExpr
  fields : List FieldDecl
  methods : List FunctionDecl
  isAbstract : Bool
  span : Span

/-- A top-level item. -/
inductive Item where
  /-- Makes a native function callable in the module. -/
  | require (name : Ident)
  | function (decl : FunctionDecl)
  | classDecl (decl : ClassDecl)
  | global (decl : VarDecl)

/-- Where the item is written. -/
def Item.span : Item → Span
  | require n => n.span
  | function d => d.span
  | classDecl d => d.span
  | global d => d.span

/-- One source file. -/
structure Module where
  path : String
  items : List Item

/-- A whole program, in discovery order. -/
structure Program where
  modules : List Module

end ClassLang
