import PdServ.XmlElement
import PdServ.RowMajor
import PdServ.ParameterNotice
import PdServ.ParameterRange
import PdServ.SubscriptionIndex
import PdServ.MessageHistory
import PdServ.SessionOutput
import PdServ.MemoryLayout
import PdServ.DirectoryPaths
import PdServ.SessionSearch
import PdServ.SessionDelivery
import PdServ.SessionSync
import PdServ.SessionReads
import PdServ.XmlReads
import PdServ.XmlOverflow
import PdServ.DataTypePrint
import PdServ.DoubleValue
import PdServ.HexValue
import PdServ.ParameterExchange
import PdServ.ChangeReport
import PdServ.EventSubscription
import PdServ.SubscriptionFocus
import PdServ.IntegerText
import PdServ.ParserLimit
import PdServ.PersistentValue
import PdServ.SessionActive
import PdServ.Base64Value
import PdServ.TlsSessionDB
import PdServ.Database
import PdServ.BuddyTaskData
import PdServ.ParameterPush
import PdServ.IndexText
import PdServ.Xsad
import PdServ.XmlTerminated
import PdServ.XmlTermination
import PdServ.VariableAttributes
import PdServ.SdoProgress
import PdServ.PersistenceRuns
import PdServ.DirectoryListing
import PdServ.Broadcast
import PdServ.StandingOrders
import PdServ.SessionTls
import PdServ.Conversation
import PdServ.ClientCertificates
import PdServ.DataDocument
import PdServ.ParameterCoherence
import PdServ.TaskSessions
