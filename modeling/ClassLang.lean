import ClassLang.Build
import ClassLang.Proofs.Class.Linearization
import ClassLang.Proofs.Class.Merge
import ClassLang.Proofs.Class.Memo
import ClassLang.Proofs.Class.Graph
import ClassLang.Proofs.Class.Ancestors
import ClassLang.Proofs.Lowering.Traversal
import ClassLang.Proofs.Lowering.Context
import ClassLang.Proofs.Lowering.Emission
import ClassLang.Proofs.Registration.Effects
import ClassLang.Proofs.Registration.Hierarchy
import ClassLang.Proofs.Registration.Members
import ClassLang.Proofs.Ty.Conversion
import ClassLang.Proofs.Ty.Plain
import ClassLang.Proofs.Ty.Storage
import ClassLang.Proofs.Dispatch.Slots
import ClassLang.Proofs.Dispatch.Tables
import ClassLang.Proofs.Dispatch.Vtable
import ClassLang.Proofs.Dispatch.CallFrame
import ClassLang.Proofs.Dispatch.ResultType
import ClassLang.Proofs.Machine.Store
import ClassLang.Proofs.Machine.Run
import ClassLang.Proofs.Machine.Literals
import ClassLang.Proofs.Lowering.Piece
import ClassLang.Proofs.Lowering.Fragment
import ClassLang.Proofs.Lowering.Constructs
import ClassLang.Proofs.Integer.Evaluate
import ClassLang.Proofs.Integer.Values
import ClassLang.Proofs.Integer.Operations
import ClassLang.Proofs.Integer.Branches
import ClassLang.Proofs.Integer.Switch
import ClassLang.Proofs.Integer.Expression
import ClassLang.Proofs.Control.Chunk
import ClassLang.Proofs.Control.Follows
import ClassLang.Proofs.Control.Compiled
import ClassLang.Proofs.Control.Statement
import ClassLang.Proofs.Control.Faithful
import ClassLang.Proofs.Control.Flow
import ClassLang.Proofs.Control.Body
import ClassLang.Proofs.Control.Returns
import ClassLang.Proofs.Control.Labels
import ClassLang.Proofs.Elision.Contents
import ClassLang.Proofs.Elision.Conversion
import ClassLang.Proofs.Elision.Operations
import ClassLang.Proofs.Elision.Pointers
import ClassLang.Proofs.Elision.Twins
import ClassLang.Proofs.Elision.Agreement
import ClassLang.Proofs.Elision.Branches
import ClassLang.Proofs.Elision.Switch
import ClassLang.Proofs.Dispatch.ConstMethods
import ClassLang.Proofs.Safety.Access
import ClassLang.Proofs.Safety.Judgement
import ClassLang.Proofs.Safety.Steps
import ClassLang.Proofs.Class.Bindings
import ClassLang.Proofs.Safety.Known
import ClassLang.Proofs.Safety.Ready
import ClassLang.Proofs.Safety.Values
import ClassLang.Proofs.Safety.Names
import ClassLang.Proofs.Safety.Places
import ClassLang.Proofs.Elision.Expression
import ClassLang.Proofs.Elision.Assignment
import ClassLang.Proofs.Safety.Calls
import ClassLang.Proofs.Safety.Objects
import ClassLang.Proofs.Safety.Expressions
import ClassLang.Proofs.Safety.Statements
import ClassLang.Proofs.Class.Layout
import ClassLang.Proofs.Registration.Layout
import ClassLang.Proofs.Registration.Overflow
import ClassLang.Proofs.Dispatch.FunctionValues
import ClassLang.Proofs.Dispatch.ObjectTags
import ClassLang.Proofs.Ty.Instances
import ClassLang.Proofs.Registration.Scopes
import ClassLang.Proofs.Registration.Resolution
import ClassLang.Proofs.Registration.Visible
import ClassLang.Proofs.Registration.Bounds
import ClassLang.Proofs.Class.TemplateBounds
import ClassLang.Proofs.Ty.Spelling
import ClassLang.Proofs.Registration.Names
import ClassLang.Proofs.Registration.Overloads
import ClassLang.Proofs.Registration.Complete
import ClassLang.Proofs.Lowering.Overload
import ClassLang.Proofs.Lowering.Statements
import ClassLang.Proofs.Lowering.Functions
import ClassLang.Proofs.Lowering.Restored
import ClassLang.Proofs.Registration.Sessions
import ClassLang.Proofs.Diagnostics.Programs
import ClassLang.Proofs.Link.Names
import ClassLang.Proofs.Link.Closed
import ClassLang.Proofs.Link.Sections
import ClassLang.Proofs.Registration.Retained
import ClassLang.Proofs.Safety.Bodies
import ClassLang.Proofs.Safety.Layout
import ClassLang.Proofs.Safety.Members
import ClassLang.Proofs.Safety.Programs
import ClassLang.Proofs.Lowering.Recorded
import ClassLang.Proofs.Registration.Natives
import ClassLang.Proofs.Registration.Queue
import ClassLang.Proofs.Safety.Sections
import ClassLang.Proofs.Safety.Natives
import ClassLang.Proofs.Registration.Declaring
import ClassLang.Proofs.Safety.Tags
import ClassLang.Proofs.Writes.Judgement
import ClassLang.Proofs.Writes.Steps
import ClassLang.Proofs.Writes.Calls
import ClassLang.Proofs.Writes.Expressions
import ClassLang.Proofs.Safety.Overflow
import ClassLang.Proofs.Writes.Temporaries
import ClassLang.Proofs.Writes.Variables
import ClassLang.Proofs.Writes.Statements
import ClassLang.Proofs.Writes.Bodies
import ClassLang.Proofs.Writes.Programs
import ClassLang.Proofs.Writes.Constants
import ClassLang.Proofs.Writes.Operands
import ClassLang.Proofs.Registration.Waiting
import ClassLang.Proofs.Dispatch.Arguments
import ClassLang.Proofs.Dispatch.DirectCalls
import ClassLang.Proofs.Order.View
import ClassLang.Proofs.Overload.Ranking
import ClassLang.Proofs.Overload.Distance
import ClassLang.Proofs.Overload.Strength
import ClassLang.Proofs.Registration.Faults
import ClassLang.Proofs.Registration.LayoutOrder
import ClassLang.Proofs.Order.Steps
import ClassLang.Proofs.Order.Names
import ClassLang.Proofs.Order.Headers
import ClassLang.Proofs.Order.Layouts
import ClassLang.Proofs.Order.Programs
import ClassLang.Proofs.Literals.Pool
import ClassLang.Proofs.Literals.Floats
import ClassLang.Proofs.Frame.Blocks
import ClassLang.Proofs.Listing.Lines
import ClassLang.Proofs.Ty.Composition
import ClassLang.Proofs.Registration.HierarchyErrors
