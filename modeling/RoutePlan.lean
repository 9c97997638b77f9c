import RoutePlan.Binary64
import RoutePlan.Catalog
import RoutePlan.CommandLine
import RoutePlan.CommandLine.Arguments
import RoutePlan.CommandLine.Invocation
import RoutePlan.Decimal
import RoutePlan.Dict
import RoutePlan.Error
import RoutePlan.Json
import RoutePlan.Json.Numeral
import RoutePlan.Json.Quoted
import RoutePlan.Json.Reader
import RoutePlan.Json.Writer
import RoutePlan.Main
import RoutePlan.Method
import RoutePlan.Param
import RoutePlan.Percent
import RoutePlan.Resource
import RoutePlan.Route
import RoutePlan.Route.Canonical
import RoutePlan.Settings
import RoutePlan.Template
import RoutePlan.Template.Lexeme
import RoutePlan.Template.Parse
import RoutePlan.Text
import RoutePlan.Yaml.Char
import RoutePlan.Yaml.Document
import RoutePlan.Yaml.Lexer
import RoutePlan.Yaml.Meaning
import RoutePlan.Yaml.Numeral
import RoutePlan.Yaml.Property
import RoutePlan.Yaml.Reading
import RoutePlan.Yaml.Scalar
import RoutePlan.Yaml.Tag
import RoutePlan.Yaml.Token
import RoutePlan.Proofs.Text
import RoutePlan.Proofs.Template.SlotTable
import RoutePlan.Proofs.Template.Occurrences
import RoutePlan.Proofs.Template.Authority
import RoutePlan.Proofs.Dict
import RoutePlan.Proofs.Route.Filling
import RoutePlan.Proofs.Route.Invocations
import RoutePlan.Proofs.Route.Renaming
import RoutePlan.Proofs.Resource.Layers
import RoutePlan.Proofs.Resource.Failure
import RoutePlan.Proofs.Catalog
import RoutePlan.Proofs.Route.Canonical
import RoutePlan.Proofs.Host
import RoutePlan.Proofs.Percent
import RoutePlan.Proofs.Template.WellFormed
import RoutePlan.Proofs.Template.Words
import RoutePlan.Proofs.Template.Renaming
import RoutePlan.Proofs.Template.QueryFlag
import RoutePlan.Proofs.Template.Insertion
import RoutePlan.Proofs.Escapes
import RoutePlan.Proofs.Route.Marks
import RoutePlan.Proofs.Route.Confined
import RoutePlan.Proofs.Route.QueryValue
import RoutePlan.Proofs.Route.Substitution
import RoutePlan.Proofs.Route.MissingSegment
import RoutePlan.Proofs.Route.CanonicalForm
import RoutePlan.Proofs.Route.TrailingSlashes
import RoutePlan.Proofs.Route.DoubleSlashes
import RoutePlan.Proofs.Resource.Dependence
import RoutePlan.Proofs.Param.ArrayText
import RoutePlan.Proofs.Param.Path
import RoutePlan.Proofs.Percent.Unescaping
import RoutePlan.Proofs.Resource.ExtraDefaults
import RoutePlan.Proofs.Binary64
import RoutePlan.Proofs.Json.Quoted
import RoutePlan.Proofs.Json.Integer
import RoutePlan.Proofs.Json.Pretty
import RoutePlan.Proofs.Json.RoundTrip
import RoutePlan.Proofs.Param.Assignment
import RoutePlan.Proofs.Param.IntegerAssignment
import RoutePlan.Proofs.Resource.ActionForm
import RoutePlan.Proofs.CommandLine
import RoutePlan.Proofs.Text.Bytes
import RoutePlan.Proofs.Template.Cursor
import RoutePlan.Proofs.Route.CanonicalBytes
import RoutePlan.Proofs.Route.Slices
