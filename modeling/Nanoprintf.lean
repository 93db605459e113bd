import Nanoprintf.Foundations.Buffer
import Nanoprintf.Foundations.Digits
import Nanoprintf.Foundations.Rounding
import Nanoprintf.Foundations.Runs
import Nanoprintf.Foundations.Readers
import Nanoprintf.Foundations.Truncation
import Nanoprintf.Foundations.Interleaving
import Nanoprintf.Foundations.RelativeError
import Nanoprintf.Foundations.FloatFormat
import Nanoprintf.Config
import Nanoprintf.FormatSpec
import Nanoprintf.Grammar
import Nanoprintf.ParserSpec
import Nanoprintf.Utoa
import Nanoprintf.Real
import Nanoprintf.RealValue
import Nanoprintf.Representation
import Nanoprintf.Scaling
import Nanoprintf.Machine
import Nanoprintf.IntegerScaling
import Nanoprintf.DecimalText
import Nanoprintf.DecimalReading
import Nanoprintf.HexText
import Nanoprintf.EtoaDigits
import Nanoprintf.Ftoa
import Nanoprintf.Etoa
import Nanoprintf.Atoa
import Nanoprintf.Printf
import Nanoprintf.Emission
import Nanoprintf.Snprintf
import Nanoprintf.EtoaRounding
import Nanoprintf.EtoaLayout
import Nanoprintf.EtoaSpec
import Nanoprintf.Builds
import Nanoprintf.EtoaExact
import Nanoprintf.EtoaDropped
import Nanoprintf.EtoaAgreement
import Nanoprintf.EtoaShortest
import Nanoprintf.EtoaResult
import Nanoprintf.EtoaNormal
import Nanoprintf.FtoaDigits
import Nanoprintf.FtoaSpec
import Nanoprintf.FtoaRounding
import Nanoprintf.FtoaAgreement
import Nanoprintf.BuildResults
import Nanoprintf.AtoaSpec
import Nanoprintf.ConversionBounds
import Nanoprintf.Requests
import Nanoprintf.ConversionText
import Nanoprintf.RealText
import Nanoprintf.Formatting
import Nanoprintf.Directives
import Nanoprintf.Pieces
import Nanoprintf.Verbatim
import Nanoprintf.Arguments
import Nanoprintf.Features
import Nanoprintf.Accounting
import Nanoprintf.SnprintfSpec
import Nanoprintf.Saturation
import Nanoprintf.RealFields
import Nanoprintf.IntegerText
import Nanoprintf.Independence
import Nanoprintf.StringReads
import Nanoprintf.Threads
import Nanoprintf.SharedMemory
import Nanoprintf.Concurrency
import Nanoprintf.Soundness
import Nanoprintf.Overflow
import Nanoprintf.Accuracy
import Nanoprintf.EtoaStyles
import Nanoprintf.RoundTrip
import Nanoprintf.RealPatterns
import Nanoprintf.Scanning
import Nanoprintf.CallSites
import Nanoprintf.Widening
import Nanoprintf.RealAgreement
import Nanoprintf.SinglePrecision
import Nanoprintf.Portability
import Nanoprintf.Appending
