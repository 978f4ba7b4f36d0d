import ClientServerApp.LinkedList.History
import ClientServerApp.HashTable.Cost
import ClientServerApp.HashTable.Pointers
import ClientServerApp.Trie.Shape
import ClientServerApp.Trie.Freeing
import ClientServerApp.Matcher.Generality
import ClientServerApp.Matcher.Termination
import ClientServerApp.Server.Sessions
import ClientServerApp.Server.BadInput
import ClientServerApp.Server.Relay
import ClientServerApp.Server.Failures
import ClientServerApp.Server.Descriptors
import ClientServerApp.Server.Footprint
import ClientServerApp.Subscriber.MainLoop
import ClientServerApp.Network.Published
import ClientServerApp.Network.Downstream
import ClientServerApp.Network.Address
import ClientServerApp.Network.Handshake
import ClientServerApp.Network.Identity
import ClientServerApp.Network.CommandLine
import ClientServerApp.Network.Screen
