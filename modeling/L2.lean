import L2.Bootstrap.Arity
import L2.Graph.Walk
import L2.Bootstrap.Dependencies
import L2.Bootstrap.EscapeAnalysis
import L2.Bootstrap.Fixpoint
import L2.SelfHost.Covered
import L2.SelfHost.Lexer
import L2.SelfHost.LinkSymbols
import L2.SelfHost.Rewriting
import L2.Bootstrap.AssemblerCorrect
import L2.Bootstrap.Generator
import L2.Bootstrap.RoundTrip
import L2.SelfHost.HashTableRefines
import L2.SelfHost.BindingResolved
import L2.SelfHost.LoadersAgree
import L2.SelfHost.RegionAllocatorSafe
import L2.Bootstrap.Integrity
import L2.Bootstrap.Printer
import L2.Macros.Numbers
import L2.Macros.Text
import L2.Macros.BackquoteCorrect
import L2.Bootstrap.FrameLayoutCorrect
