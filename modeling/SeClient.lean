import SeClient.Chain
import SeClient.Transition
import SeClient.Bits
import SeClient.Memory
import SeClient.EventQueue
import SeClient.Retrieve
import SeClient.Schedule
import SeClient.Board
import SeClient.Changes
import SeClient.Effects
import SeClient.Contest
import SeClient.Insertion
import SeClient.Removal
import SeClient.Scheduling
import SeClient.Updating
import SeClient.Devices
import SeClient.Runs
import SeClient.Causes
import SeClient.Pairing
import SeClient.StartWindow
import SeClient.Terminal
import SeClient.BitIO
import SeClient.BitWriting
import SeClient.BitReading
import SeClient.Integers
import SeClient.StringTable
import SeClient.Strings
import SeClient.StringSync
import SeClient.Web
import SeClient.Weaving
import SeClient.Refetch
import SeClient.Calls
import SeClient.Propagation
import SeClient.Dangling
import SeClient.Paging
import SeClient.ParseDoc
import SeClient.ExiDriver
import SeClient.Encoding
import SeClient.SendQueue
import SeClient.Bridge
import SeClient.EventCells
import SeClient.Delivery
import SeClient.HttpLines
import SeClient.Answers
import SeClient.HttpReceive
import SeClient.Responses
import SeClient.Divisions
import SeClient.Framing
import SeClient.Exclusive
import SeClient.Json
import SeClient.TextPipe
import SeClient.EventJson
import SeClient.Fips180
import SeClient.Identity
import SeClient.XmlToken
import SeClient.CharacterData
import SeClient.Uri
import SeClient.Targets
import SeClient.Polling
import SeClient.Utf8
import SeClient.Numerals
import SeClient.ControlModes
import SeClient.ActiveQueue
import SeClient.KeyOrder
import SeClient.Literals
import SeClient.Rfc3986
import SeClient.HostAddresses
import SeClient.HttpUris
import SeClient.UriWriting
import SeClient.TcpTimeouts
import SeClient.ExiValues
import SeClient.XmlDriver
import SeClient.SchemaWalk
import SeClient.ExiWalk
import SeClient.XmlWalk
import SeClient.FlagIsolation
import SeClient.FlagWords
import SeClient.DnsNames
import SeClient.TxtRecords
import SeClient.Dnssd
import SeClient.DnssdReception
import SeClient.DnssdAnswers
import SeClient.TopSort
import SeClient.SchemaGraph
import SeClient.ChainSort
import SeClient.AttrCollection
import SeClient.RequestBuffers
import SeClient.Ipv6Literals
import SeClient.DnsEncoding
import SeClient.Queries
import SeClient.BitFields
import SeClient.ParallelCount
import SeClient.SparseGroup
import SeClient.MediaRanges
import SeClient.MediaLists
import SeClient.Database
import SeClient.Reception
import SeClient.Probing
import SeClient.HashTable
import SeClient.HashMaps
import SeClient.EventCodes
import SeClient.EventReading
import SeClient.UnknownElements
import SeClient.TableGenerator
import SeClient.TableRows
import SeClient.PrintedTables
import SeClient.XmlItems
import SeClient.ParserSteps
import SeClient.XmlReading
import SeClient.XmlRuns
import SeClient.XmlDocuments
import SeClient.OutputWalk
import SeClient.Packing
import SeClient.XmlOutput
import SeClient.XmlPieces
import SeClient.XmlCalls
import SeClient.XmlBuffers
import SeClient.XmlValues
import SeClient.XmlPrinting
import SeClient.XmlLexing
import SeClient.XmlExchange
import SeClient.Levels
import SeClient.DnssdDiscovery
import SeClient.ExiReading
import SeClient.ScheduleTables
import SeClient.ExiDocuments
