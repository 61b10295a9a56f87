import QuickFix.Binding.Assign
import QuickFix.Binding.Hierarchy
import QuickFix.Binding.Id
import QuickFix.Binding.Names
import QuickFix.Binding.Table
import QuickFix.Config.Load
import QuickFix.Config.Settings
import QuickFix.Diff.Ops
import QuickFix.Diff.Unified
import QuickFix.Edit.Apply
import QuickFix.Edit.Basic
import QuickFix.Edit.Normalize
import QuickFix.Fix.CleanUp
import QuickFix.Fix.CodeStyle
import QuickFix.Fix.Error
import QuickFix.Fix.Fix
import QuickFix.Fix.Imports
import QuickFix.Fix.Messages
import QuickFix.Fix.Operation
import QuickFix.Fix.Options
import QuickFix.Fix.Scope
import QuickFix.Fix.Session
import QuickFix.Fix.StaticAccess
import QuickFix.Fix.Stub
import QuickFix.Fix.ThisQualifier
import QuickFix.Fix.Unresolved.Changes
import QuickFix.Fix.Unresolved.Naming
import QuickFix.Fix.Unresolved.Proposals
import QuickFix.Fix.Unresolved.Shape
import QuickFix.Number.Binary64
import QuickFix.Outline.Basic
import QuickFix.Outline.Render
import QuickFix.Project.Basic
import QuickFix.Project.Problem
import QuickFix.Proofs.ParameterNames
import QuickFix.Setup.Declaration
import QuickFix.Syntax.Builder
import QuickFix.Syntax.Kind
import QuickFix.Syntax.Modifiers
import QuickFix.Syntax.Tree
import QuickFix.Text.Blank
import QuickFix.Text.Bytes
import QuickFix.Text.Case
import QuickFix.Text.Lines
import QuickFix.Text.Quoted
import QuickFix.Toml.Error
import QuickFix.Toml.Node
import QuickFix.Toml.Parse
import QuickFix.Toml.Scalar
import QuickFix.Proofs.ApplyEdits
import QuickFix.Proofs.NormalForm
import QuickFix.Proofs.NormalFormApply
import QuickFix.Proofs.RedundantThis
import QuickFix.Proofs.ConflictingChanges
import QuickFix.Proofs.TreeShape
import QuickFix.Proofs.SessionWalk
import QuickFix.Proofs.SessionFinish
import QuickFix.Proofs.IndependentQualifiers
import QuickFix.Proofs.StaticAccessQualifiers
import QuickFix.Proofs.SessionRendering
import QuickFix.Proofs.TreeBuilding
import QuickFix.Proofs.ImportNames
import QuickFix.Proofs.StaticAccessTypes
import QuickFix.Proofs.SignatureProposals
import QuickFix.Proofs.CoveringNode
import QuickFix.Proofs.ShapeMatching
import QuickFix.Proofs.CallMatching
import QuickFix.Proofs.ImportText
import QuickFix.Proofs.StaticAccessOrder
import QuickFix.Proofs.StaticAccessHoisting
import QuickFix.Proofs.BuilderLayout
import QuickFix.Proofs.Subtyping
import QuickFix.Proofs.Boxing
import QuickFix.Proofs.RenderedTrees
import QuickFix.Proofs.ShapeRepairs
import QuickFix.Proofs.NestedNames
import QuickFix.Proofs.NodesOutsideUnit
import QuickFix.Proofs.ListRemovals
import QuickFix.Proofs.ListRebuild
import QuickFix.Proofs.TableShape
