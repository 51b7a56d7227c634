import ComponentSite.Http.Response
import ComponentSite.Main
import ComponentSite.Proofs.AppendOnly
import ComponentSite.Proofs.AssembledSections
import ComponentSite.Proofs.CanonicalPath
import ComponentSite.Proofs.ClassAttribute
import ComponentSite.Proofs.CleanedScript
import ComponentSite.Proofs.ComposedMarkup
import ComponentSite.Proofs.EarlierWork
import ComponentSite.Proofs.ElementLetters
import ComponentSite.Proofs.FailedLookUp
import ComponentSite.Proofs.FailureTrail
import ComponentSite.Proofs.FragmentsWired
import ComponentSite.Proofs.ImportKey
import ComponentSite.Proofs.ImportLine
import ComponentSite.Proofs.LayoutInsertions
import ComponentSite.Proofs.NameOrigins
import ComponentSite.Proofs.NestedElements
import ComponentSite.Proofs.PageIsolation
import ComponentSite.Proofs.PageSkeleton
import ComponentSite.Proofs.RequestRouting
import ComponentSite.Proofs.RootElements
import ComponentSite.Proofs.ScopedAgain
import ComponentSite.Proofs.SelectorArguments
import ComponentSite.Proofs.StyleComments
import ComponentSite.Proofs.TagAttributes
import ComponentSite.Proofs.VerbatimFragments
